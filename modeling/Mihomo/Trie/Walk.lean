import Mihomo.Trie.Index
import Mihomo.Trie.Stored

/-!
# The walk of `Has`

The walk is followed from the places where a label of the query starts. `Answers out stack R` says that
it ends with true if `R` holds and otherwise goes on as from the saved cursors on `stack`. Between the
labels the walk can only follow the bytes of the query.
-/

namespace Mihomo.Trie
open Go Lib List Nat

/-! ### How walks end -/

section Ends

variable (ss : DomainSet) (key : Str)

def Ends (w : Walk) (b : Bool) : Prop := ∃ fuel, ss.walk key fuel w = .ok b

inductive Settles : Walk ⊕ Bool → Bool → Prop where
  | stop (b : Bool) : Settles (.inr b) b
  | go {w : Walk} {b : Bool} (h : Ends ss key w b) : Settles (.inl w) b

def Resumes (stack : List Cursor) (b : Bool) : Prop :=
  ∃ x, ss.backtrack key stack = .ok x ∧ Settles ss key x b

def Takes (w : Walk) (b : Bool) : Prop := ∃ x, ss.advance key w = .ok x ∧ Settles ss key x b

def Answers (out : Bool → Prop) (stack : List Cursor) (R : Prop) : Prop :=
  (R → out true) ∧ (¬ R → ∀ b, Resumes ss key stack b → out b)

variable {ss key} {w : Walk}

theorem walk_succ {fuel : Nat} {b : Bool} (h : ss.walk key fuel w = .ok b) :
    ss.walk key (fuel + 1) w = .ok b := by
  induction fuel generalizing w with
  | zero => cases h
  | succ fuel ih =>
    rw [DomainSet.walk] at h ⊢
    cases hs : ss.step key w with
    | error e => rw [hs] at h; cases h
    | ok x =>
      rw [hs] at h
      cases x with
      | inl w' => exact ih h
      | inr b' => exact h

theorem walk_le {fuel n : Nat} {b : Bool} (h : ss.walk key fuel w = .ok b) (hn : fuel ≤ n) :
    ss.walk key n w = .ok b := by
  induction hn with
  | refl => exact h
  | step _ ih => exact walk_succ ih

theorem ends_of_step {x : Walk ⊕ Bool} {b : Bool} (hs : ss.step key w = .ok x)
    (h : Settles ss key x b) : Ends ss key w b := by
  cases h with
  | stop => exact ⟨1, by rw [DomainSet.walk, hs]; rfl⟩
  | go h =>
    obtain ⟨fuel, hw⟩ := h
    exact ⟨fuel + 1, by rw [DomainSet.walk, hs]; exact hw⟩

theorem resumes_nil {b : Bool} : Resumes ss key [] b ↔ b = false := by
  constructor
  · rintro ⟨x, hx, hb⟩
    cases hx
    cases hb
    rfl
  · rintro rfl
    exact ⟨_, rfl, .stop false⟩

variable {out out' : Bool → Prop} {stack stack' : List Cursor} {R R' : Prop}

theorem Answers.mono (h : Answers ss key out stack R) (ho : ∀ b, out b → out' b) :
    Answers ss key out' stack R :=
  ⟨fun hR => ho _ (h.1 hR), fun hR b hb => ho _ (h.2 hR b hb)⟩

theorem Answers.congr (h : Answers ss key out stack R) (hR : R ↔ R') : Answers ss key out stack R' :=
  propext hR ▸ h

theorem answers_of_not (hR : ¬ R) (h : ∀ b, Resumes ss key stack b → out b) :
    Answers ss key out stack R :=
  ⟨fun hr => absurd hr hR, fun _ => h⟩

theorem Answers.or (h : Answers ss key out stack' R)
    (h' : Answers ss key (Resumes ss key stack') stack R') : Answers ss key out stack (R ∨ R') := by
  by_cases hR : R
  · exact ⟨fun _ => h.1 hR, fun hn => absurd (.inl hR) hn⟩
  · exact ⟨fun hor => h.2 hR _ (h'.1 (hor.resolve_left hR)), fun hn b hb =>
      h.2 hR b (h'.2 (fun hR' => hn (.inr hR')) b hb)⟩

end Ends

/-! ### Scanning the edges of a node -/

structure Reads (key bs : Str) : Prop where
  length : key.length = bs.length
  byte : ∀ i, revLowerAt key i = inRange bs[i]?

variable {keys : List Str} {key bs : Str} {k i : Nat} {p : Str} {c d : UInt8} {stack : List Cursor}

theorem byte_of_drop {s : Str} (h : bs.drop i = c :: s) : bs[i]? = some c ∧ bs.drop (i + 1) = s := by
  rw [← head?_drop, ← tail_drop, h]
  exact ⟨rfl, rfl⟩

variable {pos : Nat} {mid : List UInt8} {R Q : Prop} {rest l : Str}

abbrev Answered (keys : List Str) (key : Str) (out : DomainSet → Str → Walk → Bool → Prop) (w : Walk)
    (R : Prop) : Prop :=
  Answers (layoutOf keys) key (out (layoutOf keys) key w) w.stack R

def Idle (c d : UInt8) : Prop := d ≠ complexWildcardByte ∧ d ≠ wildcardByte ∧ d ≠ c

section Scan

variable (hr : Reads key bs) (hc : bs[i]? = some c)
include hr hc

theorem step_stop (hstop : getBit (layoutOf keys).labelBitmap pos = .ok true) :
    (layoutOf keys).step key ⟨k, pos, i, stack⟩ = (layoutOf keys).backtrack key stack := by
  rw [DomainSet.step, hr.byte, hc]
  rw [hstop]
  rfl

variable (hk : At keys k p)
include hk

theorem step_edge (hedge : EdgeAt keys k p d pos) :
    (layoutOf keys).step key ⟨k, pos, i, stack⟩ =
      if d = complexWildcardByte then .ok (.inr true)
      else if d = wildcardByte then .ok (.inl ⟨k, pos + 1, i, ⟨pos, i⟩ :: stack⟩)
      else if d = c then (layoutOf keys).advance key ⟨k, pos, i, stack⟩
      else .ok (.inl ⟨k, pos + 1, i, stack⟩) := by
  rw [DomainSet.step, hr.byte, hc]
  rw [hedge.bit hk]
  rw [hedge.label hk]
  rfl

variable {passed ahead : List UInt8} {b : Bool}

theorem ends_skip (hsplit : edges keys p = passed ++ (mid ++ ahead)) (hmid : ∀ d ∈ mid, Idle c d)
    (h : Ends (layoutOf keys) key ⟨k, start keys k + (passed ++ mid).length, i, stack⟩ b) :
    Ends (layoutOf keys) key ⟨k, start keys k + passed.length, i, stack⟩ b := by
  induction mid generalizing passed with
  | nil => rwa [append_nil] at h
  | cons d mid ih =>
    rw [forall_mem_cons] at hmid
    obtain ⟨⟨hplus, hstar, hne⟩, hmid⟩ := hmid
    have hnext := ih (split_succ hsplit) hmid (by rwa [append_assoc])
    rw [length_append, length_singleton, ← add_assoc] at hnext
    refine ends_of_step ((step_edge hr hc hk (edgeAt_of_split hsplit)).trans ?_) (.go hnext)
    rw [if_neg hplus, if_neg hstar, if_neg hne]

theorem ends_of_stop (hsplit : edges keys p = passed ++ ahead) (hidle : ∀ d ∈ ahead, Idle c d)
    (h : Resumes (layoutOf keys) key stack b) :
    Ends (layoutOf keys) key ⟨k, start keys k + passed.length, i, stack⟩ b := by
  have hsplit' : edges keys p = passed ++ (ahead ++ []) := by rw [append_nil, hsplit]
  refine ends_skip hr hc hk hsplit' hidle ?_
  obtain ⟨x, hx, hb⟩ := h
  exact ends_of_step ((step_stop hr hc (hk.stop_of_split hsplit)).trans hx) hb

theorem answers_take (hsplit : edges keys p = passed ++ (mid ++ c :: ahead))
    (hmid : ∀ d ∈ mid, Idle c d) (hplus : c ≠ complexWildcardByte) (hstar : c ≠ wildcardByte)
    (h : ∀ pos, EdgeAt keys k p c pos → Answered keys key Takes ⟨k, pos, i, stack⟩ R) :
    Answered keys key Ends ⟨k, start keys k + passed.length, i, stack⟩ R := by
  have hedge : EdgeAt keys k p c (start keys k + (passed ++ mid).length) :=
    edgeAt_of_split (by rw [hsplit, append_assoc])
  refine (h _ hedge).mono fun b hb => ends_skip hr hc hk hsplit hmid ?_
  obtain ⟨x, hx, hb⟩ := hb
  refine ends_of_step ((step_edge hr hc hk hedge).trans ?_) hb
  rw [if_neg hplus, if_neg hstar, if_pos rfl, hx]

theorem answers_scan (hsplit : edges keys p = passed ++ ahead)
    (hidle : ∀ d ∈ ahead, d ≠ complexWildcardByte ∧ d ≠ wildcardByte) (hR : R → c ∈ ahead)
    (h : c ∈ ahead → ∀ pos, EdgeAt keys k p c pos → Answered keys key Takes ⟨k, pos, i, stack⟩ R) :
    Answered keys key Ends ⟨k, start keys k + passed.length, i, stack⟩ R := by
  by_cases hmem : c ∈ ahead
  · obtain ⟨mid, rest, rfl⟩ := append_of_mem hmem
    have hlt : edges keys p = (passed ++ mid) ++ c :: rest := by rw [hsplit, append_assoc]
    refine answers_take hr hc hk hsplit (fun d hd => ?_) (hidle c hmem).1 (hidle c hmem).2 (h hmem)
    obtain ⟨hplus, hstar⟩ := hidle d (mem_append_left _ hd)
    exact ⟨hplus, hstar, (lt_of_split_left hlt d (mem_append_right _ hd)).ne⟩
  · refine answers_of_not (fun hR' => hmem (hR hR')) fun b hb => ?_
    exact ends_of_stop hr hc hk hsplit
      (fun d hd => ⟨(hidle d hd).1, (hidle d hd).2, fun he => hmem (he ▸ hd)⟩) hb

end Scan

/-! ### Taking an edge -/

theorem advance_eq (hne : keys ≠ []) (hr : Reads key bs) (hk : At keys k p)
    (hedge : EdgeAt keys k p c pos) (hi : i + 1 < bs.length) :
    (layoutOf keys).advance key ⟨k, pos, i, stack⟩ =
      .ok (.inl ⟨pos - k + 1, start keys (pos - k + 1), i + 1, stack⟩) := by
  have hchild := hedge.child hne hk
  have hlast : i + 1 ≠ key.length := by
    rw [hr.length]
    omega
  rw [DomainSet.advance, if_neg hlast, hchild.startAfter (succ_ne_zero _)]
  rfl

theorem takes_last (hne : keys ≠ []) (hr : Reads key bs) (hc : bs[i]? = some c) (hk : At keys k p)
    (hedge : EdgeAt keys k p c pos) (hi : i + 1 = bs.length) :
    Answered keys key Takes ⟨k, pos, i, stack⟩
      (p ++ [c] ∈ keys) := by
  have hchild := hedge.child hne hk
  have hadvance : (layoutOf keys).advance key ⟨k, pos, i, stack⟩ =
      if p ++ [c] ∈ keys then .ok (.inr true) else if stack = [] then .ok (.inr false)
      else .ok (.inl ⟨pos - k + 1, stop keys (pos - k + 1) (p ++ [c]), i, stack⟩) := by
    rw [DomainSet.advance, if_pos (by rw [hr.length]; exact hi), hchild.leaf, hchild.selectIthOne]
    by_cases hmem : p ++ [c] ∈ keys
    · simp only [hmem]
      rfl
    · simp only [hmem]
      rfl
  constructor
  · intro hmem
    exact ⟨_, hadvance.trans (if_pos hmem), .stop true⟩
  · intro hmem b hb
    rw [if_neg hmem] at hadvance
    by_cases hempty : stack = []
    · rw [hempty, resumes_nil] at hb
      rw [if_pos hempty] at hadvance
      subst hb
      exact ⟨_, hadvance, .stop false⟩
    · rw [if_neg hempty] at hadvance
      obtain ⟨x, hx, hb⟩ := hb
      exact ⟨_, hadvance, .go (ends_of_step ((step_stop hr hc hchild.stop).trans hx) hb)⟩

def Plain (keys : List Str) (p : Str) : Prop :=
  ¬ IsNode keys (p ++ [wildcardByte]) ∧ ¬ IsNode keys (p ++ [complexWildcardByte])

theorem Plain.idle (h : Plain keys p) :
    ∀ d ∈ edges keys p, d ≠ complexWildcardByte ∧ d ≠ wildcardByte := by
  refine fun d hd => ⟨?_, ?_⟩
  · rintro rfl
    exact h.2 (mem_edges.mp hd)
  · rintro rfl
    exact h.1 (mem_edges.mp hd)

/-- The walk follows the bytes `c :: v` of the query through plain nodes. What happens at the
last of them decides. -/
theorem answers_follow (hne : keys ≠ []) (hr : Reads key bs) {v : Str}
    (hdrop : bs.drop i = c :: v ++ rest) (hk : At keys k p) (hedge : EdgeAt keys k p c pos)
    (hplain : ∀ u w, u ≠ [] → w ≠ [] → c :: v = u ++ w → Plain keys (p ++ u))
    (hR : R → IsNode keys (p ++ c :: v))
    (hlast : ∀ k' p' c' pos', At keys k' p' → EdgeAt keys k' p' c' pos' → p' ++ [c'] = p ++ c :: v →
      bs[i + v.length]? = some c' →
      Answered keys key Takes ⟨k', pos', i + v.length, stack⟩ R) :
    Answered keys key Takes ⟨k, pos, i, stack⟩ R := by
  induction v generalizing c k p pos i with
  | nil =>
    exact hlast k p c pos hk hedge rfl (byte_of_drop hdrop).1
  | cons c' v ih =>
    have hdrop' : bs.drop (i + 1) = c' :: v ++ rest := (byte_of_drop hdrop).2
    have hbyte : bs[i + 1]? = some c' := (byte_of_drop hdrop').1
    have hlt : i + 1 < bs.length := (List.getElem?_eq_some_iff.mp hbyte).1
    have hchild := hedge.child hne hk
    have happ : ∀ s, p ++ [c] ++ s = p ++ c :: s := fun s => by simp
    have hnode : R → c' ∈ edges keys (p ++ [c]) := by
      intro hR'
      refine mem_edges.mpr (.of_append (s := v) ?_)
      rw [append_assoc, happ]
      exact hR hR'
    have htake : c' ∈ edges keys (p ++ [c]) → ∀ pos', EdgeAt keys (pos - k + 1) (p ++ [c]) c' pos' →
        Answered keys key Takes ⟨pos - k + 1, pos', i + 1, stack⟩ R := by
      intro _ pos' hpos'
      refine ih hdrop' hchild hpos' (fun u w _ hw he => ?_)
        (by rwa [happ]) fun k₁ p₁ c₁ pos₁ h₁ h₂ h₃ h₄ => ?_
      · have hpl := hplain (c :: u) w (by simp) hw (by rw [he]; rfl)
        rwa [happ]
      · have hlen : i + 1 + v.length = i + (c' :: v).length := by
          rw [length_cons]
          omega
        rw [hlen] at h₄ ⊢
        exact hlast k₁ p₁ c₁ pos₁ h₁ h₂ (by rw [h₃, happ]) h₄
    have hsplit : edges keys (p ++ [c]) = [] ++ edges keys (p ++ [c]) := rfl
    have hidle := (hplain [c] (c' :: v) (by simp) (by simp) rfl).idle
    exact (answers_scan hr hbyte hchild hsplit hidle hnode htake).mono fun b hb =>
      ⟨_, advance_eq hne hr hk hedge hlt, .go hb⟩

/-! ### The start of a label -/

def Shadowed (keys : List Str) (p : Str) (c : UInt8) : Prop := c < wildcardByte ∧ IsNode keys (p ++ [c])

section Start

variable (hr : Reads key bs) (hc : bs[i]? = some c) (hk : At keys k p)
include hr hc hk

theorem ends_at_complex (hsplit : edges keys p = passed ++ (mid ++ complexWildcardByte :: ahead))
    (hmid : ∀ d ∈ mid, Idle c d) :
    Ends (layoutOf keys) key ⟨k, start keys k + passed.length, i, stack⟩ true := by
  refine ends_skip hr hc hk hsplit hmid ?_
  have hedge : EdgeAt keys k p complexWildcardByte (start keys k + (passed ++ mid).length) :=
    edgeAt_of_split (by rw [hsplit, append_assoc])
  exact ends_of_step ((step_edge hr hc hk hedge).trans (if_pos rfl)) (.stop true)

theorem ends_at_wildcard (hsplit : edges keys p = passed ++ wildcardByte :: ahead) (hmid : ∀ d ∈ passed, Idle c d)
    (h : Ends (layoutOf keys) key ⟨k, start keys k + (passed ++ [wildcardByte]).length, i,
      ⟨start keys k + passed.length, i⟩ :: stack⟩ b) :
    Ends (layoutOf keys) key ⟨k, start keys k, i, stack⟩ b := by
  have hsplit' : edges keys p = [] ++ (passed ++ wildcardByte :: ahead) := hsplit
  refine ends_skip hr hc hk hsplit' hmid ?_
  rw [length_append, length_singleton, ← add_assoc] at h
  have hedge : EdgeAt keys k p wildcardByte (start keys k + passed.length) := edgeAt_of_split hsplit
  refine ends_of_step ((step_edge hr hc hk hedge).trans ?_) (.go h)
  rw [if_neg (by decide), if_pos rfl]

theorem ends_of_complex_mem (hlow : ∀ d ∈ edges keys p, d < wildcardByte → Idle c d)
    (hplus : complexWildcardByte ∈ edges keys p) :
    Ends (layoutOf keys) key ⟨k, start keys k, i, stack⟩ true := by
  obtain ⟨mid, rest, hsplit⟩ := append_of_mem hplus
  have hlt := lt_of_split_left hsplit
  have hmem : ∀ d ∈ mid, d ∈ edges keys p := fun d hd => hsplit ▸ mem_append_left _ hd
  by_cases hw : wildcardByte ∈ mid
  · obtain ⟨passed, mid, rfl⟩ := append_of_mem hw
    rw [append_assoc] at hsplit
    have hbetween : ∀ d ∈ mid, Idle c d := by
      intro d hd
      have hgt := lt_of_split hsplit d (mem_append_left _ hd)
      exact absurd hgt (lt_wildcard (hlt d (by simp [hd])) hgt.ne').asymm
    have hpassed : ∀ d ∈ passed, Idle c d := fun d hd =>
      hlow d (hmem d (mem_append_left _ hd)) (lt_of_split_left hsplit d hd)
    exact ends_at_wildcard hr hc hk hsplit hpassed
      (ends_at_complex hr hc hk (split_succ hsplit) hbetween)
  · have hsplit' : edges keys p = [] ++ (mid ++ complexWildcardByte :: rest) := hsplit
    refine ends_at_complex hr hc hk hsplit' fun d hd => hlow d (hmem d hd) ?_
    exact lt_wildcard (hlt d hd) fun he => hw (he ▸ hd)

theorem answers_shadowed (hsh : Shadowed keys p c)
    (hstatic : ∀ pos, EdgeAt keys k p c pos →
      Answered keys key Takes ⟨k, pos, i, stack⟩ Q) :
    Answered keys key Ends ⟨k, start keys k, i, stack⟩ Q := by
  obtain ⟨hlt, hnode⟩ := hsh
  obtain ⟨mid, rest, hsplit⟩ := append_of_mem (mem_edges.mpr hnode)
  have hsplit' : edges keys p = [] ++ (mid ++ c :: rest) := hsplit
  refine answers_take hr hc hk hsplit' (fun d hd => ?_) (hlt.trans wildcard_lt).ne hlt.ne hstatic
  have hdc := lt_of_split_left hsplit d hd
  exact ⟨((hdc.trans hlt).trans wildcard_lt).ne, (hdc.trans hlt).ne, hdc.ne⟩

theorem answers_wildcard {P : Prop} (hsplit : edges keys p = passed ++ wildcardByte :: ahead) (hpassed : ∀ d ∈ passed, Idle c d)
    (hahead : ∀ d ∈ ahead, d ≠ complexWildcardByte) (hQ : Q → c ∈ ahead)
    (hstatic : c ∈ ahead → ∀ stack' pos, EdgeAt keys k p c pos →
            Answered keys key Takes ⟨k, pos, i, stack'⟩ Q)
    (hstar : ∀ pos, EdgeAt keys k p wildcardByte pos →
            Answers (layoutOf keys) key (Resumes (layoutOf keys) key (⟨pos, i⟩ :: stack)) stack P) :
    Answered keys key Ends ⟨k, start keys k, i, stack⟩
      (Q ∨ P) := by
  have hidle : ∀ d ∈ ahead, d ≠ complexWildcardByte ∧ d ≠ wildcardByte := fun d hd =>
    ⟨hahead d hd, (lt_of_split hsplit d hd).ne'⟩
  have hscan := answers_scan hr hc hk (split_succ hsplit) hidle hQ fun hmem pos hpos =>
    hstatic hmem (⟨start keys k + passed.length, i⟩ :: stack) pos hpos
  exact (hscan.or (hstar _ (edgeAt_of_split hsplit))).mono fun b hb =>
    ends_at_wildcard hr hc hk hsplit hpassed hb

/-- At the start of a label: the label itself (`Q`), unless it shadows them the `*` edge (`P`)
and the `+` edge. -/
theorem answers_start {P : Prop} (hQ : Q → c ∈ edges keys p) (hQP : c = wildcardByte → Q → P)
    (hP : P → wildcardByte ∈ edges keys p)
    (hstatic : c ≠ wildcardByte → c ≠ complexWildcardByte → ∀ stack' pos, EdgeAt keys k p c pos →
      Answered keys key Takes ⟨k, pos, i, stack'⟩ Q)
    (hstar : ∀ pos, EdgeAt keys k p wildcardByte pos →
      Answers (layoutOf keys) key (Resumes (layoutOf keys) key (⟨pos, i⟩ :: stack)) stack P) :
    Answered keys key Ends ⟨k, start keys k, i, stack⟩
      (Q ∨ ¬ Shadowed keys p c ∧ (P ∨ IsNode keys (p ++ [complexWildcardByte]))) := by
  by_cases hsh : Shadowed keys p c
  · have hwalk := answers_shadowed hr hc hk hsh fun pos hpos =>
      hstatic hsh.1.ne (hsh.1.trans wildcard_lt).ne stack pos hpos
    exact hwalk.congr ⟨.inl, fun h => h.resolve_right fun h' => h'.1 hsh⟩
  have hlow : ∀ d ∈ edges keys p, d < wildcardByte → Idle c d := fun d hd hlt =>
    ⟨(hlt.trans wildcard_lt).ne, hlt.ne, fun he => hsh (he ▸ ⟨hlt, mem_edges.mp hd⟩)⟩
  by_cases hplus : complexWildcardByte ∈ edges keys p
  · exact ⟨fun _ => ends_of_complex_mem hr hc hk hlow hplus,
      fun hn => absurd (.inr ⟨hsh, .inr (mem_edges.mp hplus)⟩) hn⟩
  have hor : (P ∨ IsNode keys (p ++ [complexWildcardByte])) ↔ P :=
    or_iff_left fun h => hplus (mem_edges.mpr h)
  rw [hor, and_iff_right hsh]
  by_cases hw : wildcardByte ∈ edges keys p
  · obtain ⟨passed, ahead, hsplit⟩ := append_of_mem hw
    have hpassed : ∀ d ∈ passed, Idle c d := fun d hd =>
      hlow d (hsplit ▸ mem_append_left _ hd) (lt_of_split_left hsplit d hd)
    have hahead : ∀ d ∈ ahead, d ≠ complexWildcardByte := fun d hd he =>
      hplus (he ▸ hsplit ▸ mem_append_right _ (mem_cons_of_mem _ hd))
    -- a label `*` of the query is left to the `*` edge
    have hR : Q ∧ c ≠ wildcardByte → c ∈ ahead := by
      rintro ⟨hQ', hne⟩
      have hmem := hQ hQ'
      rw [hsplit, mem_append, mem_cons] at hmem
      exact (hmem.resolve_left fun h => (hpassed c h).2.2 rfl).resolve_left hne
    refine (answers_wildcard hr hc hk hsplit hpassed hahead hR
      (fun hmem stack' pos hpos => ?_) hstar).congr ?_
    · have hne := (lt_of_split hsplit c hmem).ne'
      exact (hstatic hne (hahead c hmem) stack' pos hpos).congr (and_iff_left hne).symm
    · by_cases hne : c = wildcardByte
      · simpa [hne] using hQP hne
      · rw [and_iff_left hne]
  · have hsplit : edges keys p = [] ++ edges keys p := rfl
    have hidle : ∀ d ∈ edges keys p, d ≠ complexWildcardByte ∧ d ≠ wildcardByte := fun d hd =>
      ⟨fun he => hplus (he ▸ hd), fun he => hw (he ▸ hd)⟩
    rw [or_iff_left fun hP' => hw (hP hP')]
    exact answers_scan hr hc hk hsplit hidle hQ fun hmem pos hpos =>
      hstatic (hidle c hmem).2 (hidle c hmem).1 stack pos hpos

end Start

/-! ### Going back to a saved cursor -/

theorem labelEnd_eq (hr : Reads key bs) (hstep : domainStepByte ∉ l)
    (hrest : rest = [] ∨ rest.head? = some domainStepByte) {fuel : Nat} (hfuel : l.length ≤ fuel)
    (hdrop : bs.drop i = l ++ rest) : labelEnd key fuel i = i + l.length := by
  induction l generalizing i fuel with
  | nil =>
    rw [nil_append] at hdrop
    cases fuel with
    | zero => rfl
    | succ fuel =>
      rw [labelEnd, hr.byte, ← head?_drop, hdrop]
      rcases hrest with rfl | hrest
      · rfl
      · rw [hrest]
        exact if_pos rfl
  | cons b l ih =>
    obtain ⟨fuel, rfl⟩ := exists_eq_succ_of_ne_zero (ne_of_gt (zero_lt_of_lt hfuel))
    rw [mem_cons, not_or] at hstep
    obtain ⟨hbyte, hdrop'⟩ := byte_of_drop hdrop
    have hnext := ih hstep.2 (le_of_succ_le_succ hfuel) hdrop'
    rw [labelEnd, hr.byte, hbyte]
    change (if b = domainStepByte then i else labelEnd key fuel (i + 1)) = _
    rw [if_neg (Ne.symm hstep.1), length_cons]
    omega

theorem findStep_spec (hk : At keys k p) {fuel : Nat} (hsplit : edges keys p = passed ++ ahead)
    (hfuel : ahead.length < fuel) :
    ∃ r, (layoutOf keys).findStep k fuel (start keys k + passed.length) = .ok r ∧
      ((∃ pos, r = some pos ∧ EdgeAt keys k p domainStepByte pos) ∨
        (r = none ∧ domainStepByte ∉ ahead)) := by
  induction ahead generalizing passed fuel with
  | nil =>
    obtain ⟨fuel, rfl⟩ := exists_eq_succ_of_ne_zero (ne_of_gt hfuel)
    refine ⟨none, ?_, .inr ⟨rfl, not_mem_nil⟩⟩
    rw [DomainSet.findStep, hk.stop_of_split (hsplit.trans (append_nil _))]
    rfl
  | cons d ahead ih =>
    obtain ⟨fuel, rfl⟩ := exists_eq_succ_of_ne_zero (ne_of_gt (zero_lt_of_lt hfuel))
    have hedge : EdgeAt keys k p d _ := edgeAt_of_split hsplit
    have hround : (layoutOf keys).findStep k (fuel + 1) (start keys k + passed.length) =
        if d = domainStepByte then .ok (some (start keys k + passed.length))
        else (layoutOf keys).findStep k fuel (start keys k + passed.length + 1) := by
      rw [DomainSet.findStep, hedge.bit hk, hedge.label hk]
      rfl
    by_cases hd : d = domainStepByte
    · subst hd
      exact ⟨_, by rw [hround, if_pos rfl], .inl ⟨_, rfl, hedge⟩⟩
    · obtain ⟨r, hr, hspec⟩ := ih (split_succ hsplit) (lt_of_succ_lt_succ hfuel)
      rw [length_append, length_singleton, ← add_assoc] at hr
      refine ⟨r, by rw [hround, if_neg hd, hr], hspec.imp_right fun h => ⟨h.1, ?_⟩⟩
      exact not_mem_cons_of_ne_of_not_mem (.symm hd) h.2

/-- A saved cursor that is taken from the stack: the `*` takes the label that it was found at. -/
theorem backtrack_eq (hne : keys ≠ []) (hk : At keys k p) (hedge : EdgeAt keys k p wildcardByte pos)
    (key : Str) (i : Nat) (stack : List Cursor) :
    ∃ r, ((∃ pos', r = some pos' ∧
        EdgeAt keys (pos - k + 1) (p ++ [wildcardByte]) domainStepByte pos') ∨
        (r = none ∧ domainStepByte ∉ edges keys (p ++ [wildcardByte]))) ∧
      (layoutOf keys).backtrack key (⟨pos, i⟩ :: stack) =
        if labelEnd key key.length i = key.length then
          if p ++ [wildcardByte] ∈ keys then .ok (.inr true) else (layoutOf keys).backtrack key stack
        else r.elim ((layoutOf keys).backtrack key stack) fun pos' =>
          .ok (.inl ⟨pos - k + 1, pos', labelEnd key key.length i, stack⟩) := by
  have hchild := hedge.child hne hk
  have hsplit : edges keys (p ++ [wildcardByte]) = [] ++ edges keys (p ++ [wildcardByte]) := rfl
  obtain ⟨r, hfind, hspec⟩ := findStep_spec hchild hsplit (lt_scanFuel hchild hsplit)
  refine ⟨r, hspec, ?_⟩
  rw [DomainSet.backtrack, hedge.countZeros hk]
  change (if labelEnd key key.length i = key.length then _ else _) = _
  split_ifs with hend hmem
  · rw [hchild.leaf, decide_eq_true hmem]
    rfl
  · rw [hchild.leaf, decide_eq_false hmem]
    rfl
  · rw [hchild.startAfter (succ_ne_zero _)]
    change ((layoutOf keys).findStep (pos - k + 1) (layoutOf keys).scanFuel
      (start keys (pos - k + 1) + ([] : List UInt8).length)).bind _ = _
    rw [hfind]
    cases r <;> rfl

theorem resumes_last (hne : keys ≠ []) (hr : Reads key bs) (hstep : domainStepByte ∉ l)
    (hdrop : bs.drop i = l) (hl : l ≠ []) (hk : At keys k p)
    (hedge : EdgeAt keys k p wildcardByte pos) :
    Answers (layoutOf keys) key (Resumes (layoutOf keys) key (⟨pos, i⟩ :: stack)) stack
      (p ++ [wildcardByte] ∈ keys) := by
  have hend : labelEnd key key.length i = key.length := by
    have hlen := congrArg List.length hdrop
    have hpos := length_pos_iff.mpr hl
    rw [length_drop] at hlen
    rw [labelEnd_eq hr hstep (.inl rfl)
      (by rw [hr.length]; omega) (by rw [hdrop, append_nil]), hr.length]
    omega
  obtain ⟨_, -, hback⟩ := backtrack_eq hne hk hedge key i stack
  rw [if_pos hend] at hback
  constructor
  · exact fun hmem => ⟨_, hback.trans (if_pos hmem), .stop true⟩
  · rintro hmem b ⟨x, hx, hb⟩
    exact ⟨x, (hback.trans (if_neg hmem)).trans hx, hb⟩

theorem resumes_step (hne : keys ≠ []) (hr : Reads key bs) (hstep : domainStepByte ∉ l)
    (hdrop : bs.drop i = l ++ domainStepByte :: rest) (hrest : rest ≠ []) (hk : At keys k p)
    (hedge : EdgeAt keys k p wildcardByte pos)
    (hR : R → IsNode keys (p ++ [wildcardByte, domainStepByte]))
    (h : ∀ m, At keys m (p ++ [wildcardByte, domainStepByte]) →
      Answered keys key Ends ⟨m, start keys m, i + l.length + 1, stack⟩ R) :
    Answers (layoutOf keys) key (Resumes (layoutOf keys) key (⟨pos, i⟩ :: stack)) stack R := by
  have hlen := congrArg List.length hdrop
  have hpos := length_pos_iff.mpr hrest
  rw [length_drop, length_append, length_cons] at hlen
  have hend : labelEnd key key.length i = i + l.length :=
    labelEnd_eq hr hstep (.inr rfl) (by rw [hr.length]; omega) hdrop
  have hchild := hedge.child hne hk
  obtain ⟨r, hspec, hback⟩ := backtrack_eq hne hk hedge key i stack
  rw [hend, if_neg (by rw [hr.length]; omega)] at hback
  rcases hspec with ⟨pos', rfl, hdot⟩ | ⟨rfl, hno⟩
  · have hbyte : bs[i + l.length]? = some domainStepByte := by
      refine (byte_of_drop (s := rest) ?_).1
      rw [← drop_drop, hdrop, drop_left]
    have hnode : At keys (pos' - (pos - k + 1) + 1) (p ++ [wildcardByte, domainStepByte]) := by
      have hnext := hdot.child hne hchild
      rwa [append_assoc] at hnext
    refine (h _ hnode).mono fun b hb => ⟨_, hback, .go ?_⟩
    refine ends_of_step ((step_edge hr hbyte hchild hdot).trans ?_) (.go hb)
    rw [if_neg (by decide), if_neg (by decide), if_pos rfl, advance_eq hne hr hchild hdot (by omega)]
  · refine answers_of_not (fun hR' => hno (mem_edges.mpr ?_)) ?_
    · rw [append_assoc]
      exact hR hR'
    · rintro b ⟨x, hx, hb⟩
      exact ⟨x, hback.trans hx, hb⟩

/-! ### Any walk ends -/

theorem labelEnd_le {fuel j : Nat} (hj : j ≤ key.length) : labelEnd key fuel j ≤ key.length := by
  induction fuel generalizing j with
  | zero => exact hj
  | succ fuel ih =>
    unfold labelEnd revLowerAt
    by_cases hlt : j < key.length
    · split
      · split
        · exact hj
        · exact ih hlt
      · exact hj
    · rwa [if_neg hlt]

theorem Answers.exists {out : Bool → Prop} {ss : DomainSet} (h : Answers ss key out stack R)
    (hstack : ∃ b, Resumes ss key stack b) : ∃ b, out b := by
  by_cases hR : R
  · exact ⟨true, h.1 hR⟩
  · exact hstack.imp (h.2 hR)

/-- A walk goes deeper into the tree with every byte and with every `*` that it goes back to, so
it ends wherever it is, if it ends from the saved cursors. -/
theorem exists_ends (hne : keys ≠ []) (hr : Reads key bs) (hk : At keys k p) (hi : i < bs.length)
    (hsplit : edges keys p = passed ++ ahead)
    (hstack : ∃ b, Resumes (layoutOf keys) key stack b) :
    ∃ b, Ends (layoutOf keys) key ⟨k, start keys k + passed.length, i, stack⟩ b := by
  induction hm : columns keys - p.length using Nat.strong_induction_on
    generalizing k p i passed ahead stack with
  | _ m deeper =>
  have hc : bs[i]? = some bs[i] := getElem?_eq_getElem hi
  have hdepth : p.length < columns keys := by
    obtain ⟨key, hkey, hp⟩ := hk.isNode hne
    exact hp.length_le.trans_lt (length_lt_columns hkey)
  induction ahead generalizing passed stack with
  | nil =>
    rw [append_nil] at hsplit
    obtain ⟨b, x, hx, hb⟩ := hstack
    exact ⟨b, ends_of_step ((step_stop hr hc (hk.stop_of_split hsplit)).trans hx) hb⟩
  | cons d ahead ih =>
    have hedge : EdgeAt keys k p d (start keys k + passed.length) := edgeAt_of_split hsplit
    have hchild := hedge.child hne hk
    have hbelow : columns keys - (p ++ [d]).length < m := by
      rw [length_append, length_singleton]
      omega
    have hnext : ∀ {stack}, (∃ b, Resumes (layoutOf keys) key stack b) → ∃ b,
        Ends (layoutOf keys) key ⟨k, start keys k + passed.length + 1, i, stack⟩ b := by
      intro stack hstack
      have h := ih (split_succ hsplit) hstack
      rwa [length_append] at h
    have hstep : (layoutOf keys).step key ⟨k, start keys k + passed.length, i, stack⟩ = _ :=
      step_edge hr hc hk hedge
    split_ifs at hstep with hplus hstar hbyte
    · exact ⟨true, ends_of_step hstep (.stop true)⟩
    · subst hstar
      refine (hnext ?_).imp fun b hb => ends_of_step hstep (.go hb)
      obtain ⟨r, hspec, hback⟩ := backtrack_eq hne hk hedge key i stack
      obtain ⟨b, x, hx, hb⟩ := hstack
      split_ifs at hback with hend hmem
      · exact ⟨true, _, hback, .stop true⟩
      · exact ⟨b, x, hback.trans hx, hb⟩
      · rcases hspec with ⟨pos', rfl, j, rfl, hj⟩ | ⟨rfl, -⟩
        · have hlt : labelEnd key key.length i < bs.length := by
            rw [← hr.length] at hi ⊢
            exact (labelEnd_le hi.le).lt_of_ne hend
          have hends := deeper _ hbelow hchild hlt (take_append_drop j _).symm ⟨b, x, hx, hb⟩ rfl
          rw [length_take_of_le (List.getElem?_eq_some_iff.mp hj).1.le] at hends
          exact hends.imp fun b hb => ⟨_, hback, .go hb⟩
        · exact ⟨b, x, hback.trans hx, hb⟩
    · subst hbyte
      by_cases hlast : i + 1 = bs.length
      · obtain ⟨b, x, hx, hb⟩ := (takes_last hne hr hc hk hedge hlast).exists hstack
        exact ⟨b, ends_of_step (hstep.trans hx) hb⟩
      · have hlt : i + 1 < bs.length := by omega
        rw [advance_eq hne hr hk hedge hlt] at hstep
        obtain ⟨b, hb⟩ := deeper _ hbelow hchild hlt (nil_append _).symm hstack rfl
        exact ⟨b, ends_of_step hstep (.go hb)⟩
    · exact (hnext hstack).imp fun b hb => ends_of_step hstep (.go hb)

end Mihomo.Trie
