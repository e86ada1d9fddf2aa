import Mathlib.Tactic.Common

/-!
# Tasks that hand their result over a channel

A collector launches tasks, one goroutine each. A task runs, then offers its result on an unbuffered
channel; either the collector takes it, or the task drops it and closes the resource it opened, if it
opened one. A resource is named by the number of its task.

`Balanced` says that each opened resource is in exactly one place, with its task as long as it is on
offer, with one of the holders that the collector keeps, or in the log of those that were closed.
`outstanding` is what a counter of pending tasks counts.
-/

namespace Mihomo.Lib.Handoff
open List Nat

universe u
variable {α : Type u}

inductive Phase where
  | running
  | offering (ok : Bool)
  | taken (ok : Bool)
  | dropped (ok : Bool)
  deriving DecidableEq, Repr

namespace Phase

def opened : Phase → Bool
  | running => false
  | offering ok | taken ok | dropped ok => ok

def offered : Phase → Bool
  | offering ok => ok
  | _ => false

def isTaken : Phase → Bool
  | taken _ => true
  | _ => false

def isDropped : Phase → Bool
  | dropped _ => true
  | _ => false

def ended : Phase → Bool
  | running | offering _ => false
  | taken _ | dropped _ => true

end Phase

structure Task (α : Type u) where
  label : α
  phase : Phase
  deriving DecidableEq, Repr

structure Tasks (α : Type u) where
  all : List (Task α)
  closed : List Nat

namespace Tasks

def empty : Tasks α := ⟨[], []⟩

def launch (p : Tasks α) (a : α) : Tasks α := { p with all := p.all ++ [⟨a, .running⟩] }

def finish (p : Tasks α) (i : Nat) (ok : Bool) : Option (Tasks α) :=
  match p.all[i]? with
  | some ⟨a, .running⟩ => some { p with all := p.all.set i ⟨a, .offering ok⟩ }
  | _ => none

def take (p : Tasks α) (i : Nat) : Option (Tasks α × α × Bool) :=
  match p.all[i]? with
  | some ⟨a, .offering ok⟩ => some ({ p with all := p.all.set i ⟨a, .taken ok⟩ }, a, ok)
  | _ => none

def drop (p : Tasks α) (i : Nat) : Option (Tasks α) :=
  match p.all[i]? with
  | some ⟨a, .offering ok⟩ =>
    some ⟨p.all.set i ⟨a, .dropped ok⟩, if ok then i :: p.closed else p.closed⟩
  | _ => none

def close (p : Tasks α) (i : Nat) : Tasks α := { p with closed := i :: p.closed }

def labels (p : Tasks α) : List α := p.all.map Task.label

def untaken (p : Tasks α) (P : α → Bool) : Nat := p.all.countP fun t => !t.phase.isTaken && P t.label

/-- The tasks that a counter still counts: those not taken, and a result that the collector has taken
and not counted out yet. -/
def outstanding (p : Tasks α) (hand : Option (Nat × α × Bool)) (P : α → Bool) : Nat :=
  p.untaken P + hand.elim 0 fun result => (P result.2.1).toNat

def Ended (p : Tasks α) : Prop := ∀ t ∈ p.all, t.phase.ended

def Undropped (p : Tasks α) : Prop := ∀ t ∈ p.all, t.phase.isDropped = false

def Took (p : Tasks α) (i : Nat) (a : α) (ok : Bool) : Prop := p.all[i]? = some ⟨a, .taken ok⟩

def weight (p : Tasks α) (has : Phase → Bool) (i : Nat) : Nat :=
  match p.all[i]? with
  | some t => (has t.phase).toNat
  | none => 0

def Balanced (p : Tasks α) (holders : List Nat) : Prop :=
  ∀ i, holders.count i + p.closed.count i + p.weight Phase.offered i = p.weight Phase.opened i

/-! ### One task changes its phase -/

section Move

variable {p : Tasks α} {i : Nat} {a : α} {from' : Phase} (to' : Phase) (closed : List Nat)

section
variable (hi : p.all[i]? = some ⟨a, from'⟩)
include hi

theorem weight_set (has : Phase → Bool) (j : Nat) :
    weight ⟨p.all.set i ⟨a, to'⟩, closed⟩ has j = if j = i then (has to').toNat else p.weight has j := by
  have hlen := (List.getElem?_eq_some_iff.mp hi).1
  unfold weight
  by_cases hj : j = i
  · subst hj
    simp [hlen]
  · simp [hj, List.getElem?_set_ne (.symm hj)]

theorem weight_at (has : Phase → Bool) : p.weight has i = (has from').toNat := by
  simp [weight, hi]

theorem labels_set : labels ⟨p.all.set i ⟨a, to'⟩, closed⟩ = p.labels := by
  have hlabel : (p.all.map Task.label)[i]? = some a := by simp [hi]
  obtain ⟨hlen, hget⟩ := List.getElem?_eq_some_iff.mp hlabel
  simp only [labels, map_set]
  rw [← hget, set_getElem_self]

theorem untaken_set (P : α → Bool) :
    untaken ⟨p.all.set i ⟨a, to'⟩, closed⟩ P + (!from'.isTaken && P a).toNat =
      p.untaken P + (!to'.isTaken && P a).toNat := by
  obtain ⟨hlen, hget⟩ := List.getElem?_eq_some_iff.mp hi
  have hone : (!from'.isTaken && P a).toNat ≤ p.untaken P := by
    cases hb : (!from'.isTaken && P a) with
    | false => exact zero_le _
    | true =>
      apply countP_pos_iff.mpr
      exact ⟨_, mem_of_getElem? hi, hb⟩
  simp only [untaken] at hone ⊢
  rw [countP_set hlen, hget]
  cases hb : (!from'.isTaken && P a) <;> cases hb' : (!to'.isTaken && P a) <;>
    simp_all

theorem took_set (j : Nat) (b : α) (ok : Bool) :
    Took ⟨p.all.set i ⟨a, to'⟩, closed⟩ j b ok ↔
      if j = i then b = a ∧ to' = .taken ok else p.Took j b ok := by
  have hlen := (List.getElem?_eq_some_iff.mp hi).1
  unfold Took
  by_cases hj : j = i
  · subst hj
    simp [hlen, eq_comm]
  · simp [hj, List.getElem?_set_ne (.symm hj)]

end

theorem Balanced.set {to' : Phase} {closed holders holders' : List Nat} (h : p.Balanced holders)
    (hi : p.all[i]? = some ⟨a, from'⟩)
    (hat : holders'.count i + closed.count i + to'.offered.toNat + from'.opened.toNat =
      holders.count i + p.closed.count i + from'.offered.toNat + to'.opened.toNat)
    (hne : ∀ j ≠ i, holders'.count j + closed.count j = holders.count j + p.closed.count j) :
    Balanced ⟨p.all.set i ⟨a, to'⟩, closed⟩ holders' := by
  intro j
  have hj := h j
  rw [weight_set _ _ hi, weight_set _ _ hi]
  by_cases hji : j = i
  · subst hji
    rw [weight_at hi, weight_at hi] at hj
    rw [if_pos rfl, if_pos rfl]
    change holders'.count j + closed.count j + _ = _
    omega
  · have := hne j hji
    rw [if_neg hji, if_neg hji]
    change holders'.count j + closed.count j + _ = _
    omega

end Move

/-! ### What the goroutines do on their own -/

/-- A change that the collector does not see: nothing was launched or taken, and what happened to
the resources keeps every balance. -/
structure Quiet (p q : Tasks α) : Prop where
  labels : q.labels = p.labels
  untaken : ∀ P, q.untaken P = p.untaken P
  took : ∀ i a ok, q.Took i a ok ↔ p.Took i a ok
  balanced : ∀ {holders}, p.Balanced holders → q.Balanced holders

variable {ok : Bool} {i : Nat} {p q : Tasks α} {a : α} {holders : List Nat} {P : α → Bool}

theorem finish_eq_some (h : p.finish i ok = some q) :
    ∃ a, p.all[i]? = some ⟨a, .running⟩ ∧ q = ⟨p.all.set i ⟨a, .offering ok⟩, p.closed⟩ := by
  unfold finish at h
  split at h
  next a ha => exact ⟨a, ha, by simpa using h.symm⟩
  · cases h

theorem take_eq_some (h : p.take i = some (q, a, ok)) :
    p.all[i]? = some ⟨a, .offering ok⟩ ∧ q = ⟨p.all.set i ⟨a, .taken ok⟩, p.closed⟩ := by
  unfold take at h
  split at h
  next a' ok' ha =>
    cases h
    exact ⟨ha, rfl⟩
  · cases h

theorem drop_eq_some (h : p.drop i = some q) :
    ∃ a ok, p.all[i]? = some ⟨a, .offering ok⟩ ∧
      q = ⟨p.all.set i ⟨a, .dropped ok⟩, if ok then i :: p.closed else p.closed⟩ := by
  unfold drop at h
  split at h
  next a ok ha => exact ⟨a, ok, ha, by simpa using h.symm⟩
  · cases h

theorem exists_take (h : p.all[i]? = some ⟨a, .offering ok⟩) : ∃ q, p.take i = some (q, a, ok) := by
  unfold take
  rw [h]
  exact ⟨_, rfl⟩

theorem exists_drop (h : p.all[i]? = some ⟨a, .offering ok⟩) : ∃ q, p.drop i = some q := by
  unfold drop
  rw [h]
  exact ⟨_, rfl⟩

variable {closed : List Nat} {to' : Phase} {t : Task α}

theorem quiet_set {from' : Phase} (hi : p.all[i]? = some ⟨a, from'⟩)
    (hfrom : from'.isTaken = false) (hto : to'.isTaken = false)
    (hbalanced : ∀ {holders}, p.Balanced holders → Balanced ⟨p.all.set i ⟨a, to'⟩, closed⟩ holders) :
    Quiet p ⟨p.all.set i ⟨a, to'⟩, closed⟩ where
  labels := labels_set to' closed hi
  untaken P := by
    have h := untaken_set to' closed hi P
    rw [hfrom, hto] at h
    exact Nat.add_right_cancel h
  took j b ok := by
    rw [took_set _ _ hi]
    split
    next hj =>
      subst hj
      constructor
      · rintro ⟨-, rfl⟩
        cases hto
      · intro h
        cases hi.symm.trans h
        cases hfrom
    · rfl
  balanced := hbalanced

theorem finish_quiet (h : p.finish i ok = some q) : Quiet p q := by
  obtain ⟨a, ha, rfl⟩ := finish_eq_some h
  apply quiet_set ha rfl rfl
  intro holders hb
  apply hb.set ha
  · cases ok <;> rfl
  · intro j _
    rfl

theorem drop_quiet (h : p.drop i = some q) : Quiet p q := by
  obtain ⟨a, ok, ha, rfl⟩ := drop_eq_some h
  apply quiet_set ha rfl rfl
  intro holders hb
  cases ok with
  | false => exact hb.set ha rfl fun j _ => rfl
  | true =>
    apply hb.set ha
    · simp [Phase.offered, Phase.opened, Nat.add_assoc]
    · intro j hj
      rw [if_pos rfl, count_cons_of_ne (.symm hj)]

/-! ### What the collector does -/

theorem balanced_empty : (empty : Tasks α).Balanced [] := by
  intro i
  simp [empty, weight]

@[simp] theorem labels_launch (p : Tasks α) (a : α) : (p.launch a).labels = p.labels ++ [a] := by
  simp [labels, launch]

theorem untaken_launch (p : Tasks α) (a : α) (P : α → Bool) :
    (p.launch a).untaken P = p.untaken P + (P a).toNat := by
  simp only [untaken, launch, Phase.isTaken]
  cases h : P a <;> simp [h]

theorem getElem?_launch (p : Tasks α) (a : α) (i : Nat) :
    (p.launch a).all[i]? = if i = p.all.length then some ⟨a, .running⟩ else p.all[i]? := by
  simp only [launch, getElem?_append, getElem?_singleton]
  by_cases hlt : i < p.all.length
  · rw [if_pos hlt, if_neg (by omega)]
  · by_cases heq : i = p.all.length
    · subst heq
      simp
    · rw [if_neg hlt, if_neg heq, if_neg (by omega), getElem?_eq_none (by omega)]

theorem took_launch (p : Tasks α) (a : α) (i : Nat) (b : α) (ok : Bool) :
    (p.launch a).Took i b ok ↔ p.Took i b ok := by
  unfold Took
  rw [getElem?_launch]
  split
  next h =>
    subst h
    simp
  · rfl

theorem weight_launch (p : Tasks α) (a : α) {has : Phase → Bool} (hrunning : has .running = false)
    (i : Nat) : (p.launch a).weight has i = p.weight has i := by
  unfold weight
  rw [getElem?_launch]
  by_cases h : i = p.all.length
  · subst h
    simp [hrunning]
  · rw [if_neg h]

theorem Balanced.launch (h : p.Balanced holders) (a : α) : (p.launch a).Balanced holders := by
  intro i
  rw [weight_launch p a rfl, weight_launch p a rfl]
  exact h i

theorem Balanced.take (h : p.Balanced holders) (ht : p.take i = some (q, a, ok)) :
    q.Balanced ((if ok then [i] else []) ++ holders) := by
  obtain ⟨ha, rfl⟩ := take_eq_some ht
  cases ok with
  | false => exact h.set ha rfl fun j _ => rfl
  | true =>
    apply h.set ha
    · simp [Phase.offered, Phase.opened, Nat.add_right_comm]
    · intro j hj
      rw [if_pos rfl, singleton_append, count_cons_of_ne (.symm hj)]

theorem Balanced.close (h : p.Balanced (i :: holders)) : (p.close i).Balanced holders := by
  intro j
  have hj := h j
  simp only [count_cons] at hj
  simp only [Tasks.close, count_cons]
  change _ + _ + p.weight Phase.offered j = p.weight Phase.opened j
  omega

theorem Balanced.perm {hs hs' : List Nat} (h : p.Balanced hs) (hp : hs.Perm hs') :
    p.Balanced hs' := by
  intro i
  rw [← hp.count_eq]
  exact h i

theorem Balanced.holder (h : p.Balanced holders)
    (hi : i ∈ holders) : holders.count i = 1 ∧ p.closed.count i = 0 := by
  have hpos := count_pos_iff.mpr hi
  have hle : p.weight Phase.opened i ≤ 1 := by
    unfold weight
    split
    · exact Bool.toNat_le _
    · exact zero_le _
  have hb := h i
  omega

theorem Balanced.settled
    (h : p.Balanced holders) (hended : p.Ended) (hi : p.all[i]? = some t) (hopened : t.phase.opened)
    (hholder : i ∉ holders) : p.closed.count i = 1 := by
  have hb := h i
  have hoff : t.phase.offered = false := by
    have := hended t (mem_of_getElem? hi)
    cases hp : t.phase <;> simp_all [Phase.ended, Phase.offered]
  have hat : p.all[i]? = some { t with } := hi
  rw [weight_at hat, weight_at hat, hoff, hopened, count_eq_zero_of_not_mem hholder] at hb
  simpa using hb

section
variable (h : p.take i = some (q, a, ok))
include h

theorem untaken_take (P : α → Bool) : q.untaken P + (P a).toNat = p.untaken P := by
  obtain ⟨ha, rfl⟩ := take_eq_some h
  exact untaken_set (.taken ok) p.closed ha P

theorem labels_take : q.labels = p.labels := by
  obtain ⟨ha, rfl⟩ := take_eq_some h
  exact labels_set _ _ ha

theorem took_take (j : Nat) (b : α) (ok' : Bool) :
    q.Took j b ok' ↔ if j = i then b = a ∧ ok' = ok else p.Took j b ok' := by
  obtain ⟨ha, rfl⟩ := take_eq_some h
  rw [took_set _ _ ha]
  simp [eq_comm]

end

theorem Took.take {j : Nat} {b : α} {ok' : Bool} (hj : p.Took j b ok')
    (h : p.take i = some (q, a, ok)) : q.Took j b ok' := by
  rw [took_take h]
  split
  next hji =>
    subst hji
    obtain ⟨ha, -⟩ := take_eq_some h
    cases ha.symm.trans hj
  · exact hj

theorem Undropped.set (h : p.Undropped)
    (hto : to'.isDropped = false) : Undropped ⟨p.all.set i ⟨a, to'⟩, closed⟩ := by
  intro t ht
  rcases mem_or_eq_of_mem_set ht with ht | rfl
  · exact h t ht
  · exact hto

theorem Undropped.launch (h : p.Undropped) (a : α) : (p.launch a).Undropped :=
  forall_mem_append.mpr ⟨h, forall_mem_singleton.mpr rfl⟩

theorem Undropped.finish (h : p.Undropped) (hq : p.finish i ok = some q) : q.Undropped := by
  obtain ⟨a, -, rfl⟩ := finish_eq_some hq
  exact h.set rfl

theorem Undropped.take (h : p.Undropped) (hq : p.take i = some (q, a, ok)) : q.Undropped := by
  obtain ⟨-, rfl⟩ := take_eq_some hq
  exact h.set rfl

theorem Quiet.outstanding (h : Quiet p q) (hand : Option (Nat × α × Bool)) (P : α → Bool) :
    q.outstanding hand P = p.outstanding hand P := by
  rw [Tasks.outstanding, h.untaken]
  rfl

theorem outstanding_launch (p : Tasks α) (hand : Option (Nat × α × Bool)) (a : α) (P : α → Bool) :
    (p.launch a).outstanding hand P = p.outstanding hand P + (P a).toNat := by
  simp only [outstanding, untaken_launch]
  omega

theorem outstanding_take (h : p.take i = some (q, a, ok))
    (P : α → Bool) : q.outstanding (some (i, a, ok)) P = p.outstanding none P := by
  simp only [outstanding, Option.elim_some, untaken_take h]
  rfl

theorem outstanding_some (p : Tasks α) (i : Nat) (a : α) (ok : Bool) (P : α → Bool) :
    p.outstanding (some (i, a, ok)) P = p.outstanding none P + (P a).toNat := rfl

/-- The collector counts out the result it has in hand, in a counter for each kind of task. -/
theorem outstanding_countOut {β : Type} [DecidableEq β] (kind : α → β) {count : β → Nat}
    (h : ∀ k, count k = p.outstanding (some (i, a, ok)) fun b => kind b == k) (k : β) :
    Function.update count (kind a) (count (kind a) - 1) k = p.outstanding none fun b => kind b == k := by
  have hk := h k
  rw [outstanding_some] at hk
  rw [Function.update_apply]
  by_cases hkind : k = kind a
  · subst hkind
    rw [beq_self_eq_true, Bool.toNat_true] at hk
    rw [if_pos rfl]
    omega
  · rw [if_neg hkind]
    rw [beq_eq_false_iff_ne.mpr (.symm hkind)] at hk
    exact hk

theorem outstanding_mono (p : Tasks α) (hand : Option (Nat × α × Bool)) {Q : α → Bool}
    (h : ∀ a, P a = true → Q a = true) : p.outstanding hand P ≤ p.outstanding hand Q := by
  apply Nat.add_le_add
  · apply countP_mono_left
    intro t _ ht
    rw [Bool.and_eq_true] at ht ⊢
    exact ht.imp_right (h _)
  · cases hand with
    | none => exact Nat.le_refl _
    | some result =>
      cases hP : P result.2.1 <;> simp_all

theorem took_of_outstanding (h : p.outstanding none P = 0) (hP : P t.label = true)
    (hi : p.all[i]? = some t) : ∃ ok, p.Took i t.label ok := by
  have hcount := countP_eq_zero.mp (show p.untaken P = 0 from h) t (mem_of_getElem? hi)
  obtain ⟨label, phase⟩ := t
  cases phase with
  | taken ok => exact ⟨ok, hi⟩
  | _ => simp_all [Phase.isTaken]

theorem exists_took (h : p.outstanding none P = 0)
    (hP : P a = true) (ha : a ∈ p.labels) : ∃ i ok, p.Took i a ok := by
  obtain ⟨t, ht, rfl⟩ := mem_map.mp ha
  obtain ⟨i, hi⟩ := getElem?_of_mem ht
  exact ⟨i, took_of_outstanding h hP hi⟩

end Tasks

end Mihomo.Lib.Handoff
