import Mihomo.Override.Eval

/-!
# Nested pipelines

A union runs over all results of the stage before it, every other stage over one result at a time. So a
union inside a nested pipeline no longer sees the results together, and the results come in another
order. Where the first stage has at most one result, the pipe is associative.
-/

namespace Mihomo.Override
open Go List

/-- Whatever comes after a computation can tell nothing from lists of two or more results. -/
def AtMostOne (m : M (List Val)) : Prop :=
  ∀ (β : Type) (f g : List Val → M β), (∀ vs, vs.length ≤ 1 → f vs = g vs) → m >>= f = m >>= g

namespace AtMostOne

variable {α : Type}

theorem pure {vs : List Val} (h : vs.length ≤ 1) : AtMostOne (pure vs) := by
  intro β f g hfg
  rw [pure_bind, pure_bind, hfg vs h]

theorem bind {m : M α} {k : α → M (List Val)} (h : ∀ a, AtMostOne (k a)) : AtMostOne (m >>= k) := by
  intro β f g hfg
  rw [bind_assoc, bind_assoc]
  exact bind_congr fun a => h a β f g hfg

end AtMostOne

theorem unlessNoMatch_length (v : Val) : (unlessNoMatch v).length ≤ 1 := by
  unfold unlessNoMatch
  split <;> simp

theorem concatM_singleton {α β : Type} (a : α) (f : α → M (List β)) : concatM [a] f = f a := by
  simp [concatM]

theorem lookup_atMostOne {p : Path} (hp : Segment.wildcard ∉ p) (v : Val) :
    AtMostOne (lookupOverridePathStream p v) := by
  have hnull : AtMostOne (pure [.null]) := .pure (by simp)
  induction p generalizing v with
  | nil => exact .pure (by simp)
  | cons segment p ih =>
    rw [mem_cons, not_or] at hp
    have hrest := ih hp.2
    cases segment with
    | wildcard => exact absurd rfl hp.1
    | field key =>
      cases v with
      | map ref => exact .bind fun m => hrest _
      | scalar | arr => exact hnull
    | index i =>
      cases v with
      | arr ref len =>
        refine .bind fun items => ?_
        dsimp only
        split
        · exact hnull
        · split
          · exact hrest _
          · exact hnull
      | scalar | map => exact hnull

def Expr.Single : Expr → Prop
  | .literal _ | .string _ | .array _ | .mapping _ | .update .. | .call .. => True
  | .path p => Segment.wildcard ∉ p
  | _ => False

variable {P : Prims}

theorem Expr.Single.atMostOne {e : Expr} (he : e.Single) (input : Val) :
    AtMostOne (evalInputs P e [input]) := by
  have hpure := fun v => AtMostOne.pure (unlessNoMatch_length v)
  cases e
  case binary | stream | pipeline | union => exact he.elim
  all_goals rw [evalInputs, concatM_singleton]
  case literal v => exact .bind hpure
  case string parts => exact .bind fun _ => .pure (by simp)
  case path p => exact lookup_atMostOne he input
  case array | mapping => exact .bind fun _ => .bind fun _ => .pure (by simp)
  case update p op value =>
    refine .bind fun root => ?_
    split
    · refine .bind fun _ => .bind fun _ => ?_
      split
      · exact hpure root
      · exact .bind hpure
    · exact .bind hpure
    · exact .bind fun _ => .bind fun _ => .bind hpure
  case call f args =>
    split
    · exact .pure (by simp)
    · exact .bind fun _ => .bind hpure

mutual

theorem evalInputs_nil : ∀ e : Expr, evalInputs P e [] = pure []
  | .union values => evalEach_nil values
  | .literal _ | .string _ | .path _ | .array _ | .mapping _ | .update .. | .binary .. | .call ..
  | .stream .. | .pipeline _ => rfl

theorem evalEach_nil : ∀ es : List Expr, evalEach P es [] = pure []
  | [] => rfl
  | e :: es => by
    rw [evalEach, evalInputs_nil e, evalEach_nil es]
    rfl

end

theorem evalInputs_pipeline (a b : Expr) (input : Val) :
    evalInputs P (.pipeline [a, b]) [input] = evalInputs P a [input] >>= evalInputs P b := by
  rw [evalInputs, concatM_singleton]
  simp [evalStages]

end Mihomo.Override
