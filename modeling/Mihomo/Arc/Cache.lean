import Mathlib.Data.List.AList

/-!
# The adaptive replacement cache

`ARC` of `common/arc`: the resident lists `t1` and `t2`, the ghost lists `b1` and `b2`, the target size
`p` of `t1`, and the map from keys to entries. An entry pointer is represented by its key. The front of
a list is its most recently used end. Dereferencing the element of an empty list is the failure
`nilDereference`; a negative capacity given to `make` is `makeSlice`.
-/

namespace Mihomo.Arc

/-- The lists an entry can be on; `entry.ll` points to one of them or is nil. -/
inductive Loc where
  | t1 | b1 | t2 | b2
  deriving DecidableEq, Repr

inductive Panic where
  | nilDereference
  | makeSlice
  deriving DecidableEq, Repr

universe u v

structure Entry (K : Type u) (V : Type v) where
  key : K
  value : V
  ll : Option Loc
  ghost : Bool
  expires : Int

structure ARC (K : Type u) (V : Type v) where
  p : Int
  c : Int
  lists : Loc → List K
  len : Int
  cache : AList fun _ : K => Entry K V

structure Item (K : Type u) (V : Type v) where
  key : K
  value : V
  expires : Int

variable {K : Type u} {V : Type v}

namespace ARC

/-- `list.Len()` as the `int` the source computes with. -/
def size (a : ARC K V) (l : Loc) : Int := (a.lists l).length

def clear (a : ARC K V) : ARC K V :=
  { a with p := 0, lists := fun _ => [], len := 0, cache := ∅ }

def new (maxSize : Int) : ARC K V :=
  { p := 0, c := maxSize, lists := fun _ => [], len := 0, cache := ∅ }

variable [DecidableEq K]

def detach (a : ARC K V) (e : Entry K V) : ARC K V :=
  match e.ll with
  | none => a
  | some l => { a with lists := Function.update a.lists l ((a.lists l).erase e.key) }

/-- `entry.setMRU`: the lists after the move, and the entry with its new list. -/
def setMRU (a : ARC K V) (e : Entry K V) (l : Loc) : ARC K V × Entry K V :=
  let a := a.detach e
  ({ a with lists := Function.update a.lists l (e.key :: a.lists l) }, { e with ll := some l })

def delLRU (a : ARC K V) (l : Loc) : Except Panic (ARC K V) :=
  match (a.lists l).getLast? with
  | none => .error .nilDereference
  | some lru =>
    .ok { a with
      lists := Function.update a.lists l ((a.lists l).erase lru)
      len := a.len - 1
      cache := a.cache.erase lru }

variable [Inhabited V]

/-- The body shared by both branches of `replace`: the least recently used entry
of `src` loses its value and becomes the most recent ghost of `dst`. -/
def demote (a : ARC K V) (src dst : Loc) : Except Panic (ARC K V) :=
  match (a.lists src).getLast? with
  | none => .error .nilDereference
  | some k =>
    match a.cache.lookup k with
    | none => .error .nilDereference
    | some lru =>
      let (a, lru) := a.setMRU { lru with value := default, ghost := true } dst
      .ok { a with len := a.len - 1, cache := a.cache.insert k lru }

def replace (a : ARC K V) (ent : Entry K V) : Except Panic (ARC K V) :=
  if a.size .t1 > 0 ∧ (a.size .t1 > a.p ∨ (ent.ll = some .b2 ∧ a.size .t1 = a.p)) then
    a.demote .t1 .b1
  else
    a.demote .t2 .b2

def req (a : ARC K V) (ent : Entry K V) : Except Panic (ARC K V × Entry K V) :=
  match ent.ll with
  | some .t1 | some .t2 => .ok (a.setMRU ent .t2)
  | some .b1 => do
    let d := if a.size .b1 ≥ a.size .b2 then 1 else a.size .b2 / a.size .b1
    let a ← { a with p := min (a.p + d) a.c }.replace ent
    return a.setMRU ent .t2
  | some .b2 => do
    let d := if a.size .b2 ≥ a.size .b1 then 1 else a.size .b1 / a.size .b2
    let a ← { a with p := max (a.p - d) 0 }.replace ent
    return a.setMRU ent .t2
  | none =>
    if a.size .t1 + a.size .b1 = a.c then do
      if a.size .t1 < a.c then
        let a ← a.delLRU .b1
        let a ← a.replace ent
        return a.setMRU ent .t1
      else
        let a ← a.delLRU .t1
        return a.setMRU ent .t1
    else if a.size .t1 + a.size .b1 < a.c then do
      let total := a.size .t1 + a.size .t2 + a.size .b1 + a.size .b2
      if total ≥ a.c then
        if total = 2 * a.c then
          let a ← a.delLRU .b2
          let a ← a.replace ent
          return a.setMRU ent .t1
        else
          let a ← a.replace ent
          return a.setMRU ent .t1
      else
        return a.setMRU ent .t1
    else
      .ok (a.setMRU ent .t1)

def setWithExpire (a : ARC K V) (key : K) (value : V) (expires : Int) : Except Panic (ARC K V) :=
  match a.cache.lookup key with
  | none => do
    let a := { a with len := a.len + 1 }
    let (a, ent) ← a.req { key, value, ll := none, ghost := false, expires }
    return { a with cache := a.cache.insert key ent }
  | some ent => do
    let a := if ent.ghost then { a with len := a.len + 1 } else a
    -- the map shares the entry, so what `req` does to it is written back
    let (a, ent) ← a.req { ent with value, ghost := false, expires }
    return { a with cache := a.cache.insert key ent }

def set (a : ARC K V) (key : K) (value : V) : Except Panic (ARC K V) :=
  a.setWithExpire key value 0

/-- The entry is returned only when it is live, which is the `ok` of the source. -/
def get (a : ARC K V) (key : K) : Except Panic (ARC K V × Option (Entry K V)) :=
  match a.cache.lookup key with
  | none => .ok (a, none)
  | some ent => do
    let (a, ent) ← a.req ent
    return ({ a with cache := a.cache.insert key ent }, if ent.ghost then none else some ent)

def delete (a : ARC K V) (key : K) : ARC K V :=
  match a.cache.lookup key with
  | none => a
  | some ent =>
    let a := a.detach ent
    { a with
      len := if ent.ghost then a.len else a.len - 1
      cache := a.cache.erase key }

omit [DecidableEq K] [Inhabited V] in
def live (a : ARC K V) : List (Entry K V) :=
  (a.cache.entries.map Sigma.snd).filter fun e => !e.ghost

def snapshot (a : ARC K V) : Except Panic (List (Item K V)) :=
  if a.len < 0 then .error .makeSlice
  else .ok (a.live.map fun e => { key := e.key, value := e.value, expires := e.expires })

end ARC

inductive Op (K : Type u) (V : Type v) where
  | set (key : K) (value : V)
  | setWithExpire (key : K) (value : V) (expires : Int)
  | get (key : K)
  | getWithExpire (key : K)
  | delete (key : K)
  | clear
  | snapshot

variable [DecidableEq K] [Inhabited V]

def step (a : ARC K V) : Op K V → Except Panic (ARC K V)
  | .set key value => a.set key value
  | .setWithExpire key value expires => a.setWithExpire key value expires
  | .get key | .getWithExpire key => Prod.fst <$> a.get key
  | .delete key => .ok (a.delete key)
  | .clear => .ok a.clear
  | .snapshot => (fun _ => a) <$> a.snapshot

end Mihomo.Arc
