import Mathlib.Data.Finset.Basic

/-!
# The least-recently-used cache

`LruCache` of `common/lru`. The list holds the entries, least recently used first;
the map is represented by its key set, an element pointer being the list element
whose entry has that key. Times are Unix seconds, and the clock is an argument.
-/

namespace Mihomo.Lru

universe u v

structure Entry (K : Type u) (V : Type v) where
  key : K
  value : V
  expires : Int

structure LruCache (K : Type u) (V : Type v) where
  maxAge : Int
  maxSize : Int
  cache : Finset K
  lru : List (Entry K V)
  updateAgeOnGet : Bool
  staleReturn : Bool

variable {K : Type u} {V : Type v}

namespace LruCache

def new (maxSize : Int) : LruCache K V :=
  { maxAge := 0, maxSize, cache := ∅, lru := [], updateAgeOnGet := false, staleReturn := false }

def clear (c : LruCache K V) : LruCache K V := { c with cache := ∅, lru := [] }

variable [DecidableEq K]

def element (c : LruCache K V) (key : K) : Option (Entry K V) :=
  if key ∈ c.cache then c.lru.find? fun e => decide (e.key = key) else none

def exist (c : LruCache K V) (key : K) : Bool := key ∈ c.cache

def deleteElement (c : LruCache K V) (key : K) : LruCache K V :=
  { c with
    lru := c.lru.eraseP fun e => decide (e.key = key)
    cache := c.cache.erase key }

/-- `MoveToBack` of the element of `e.key`, which now holds `e`. -/
def moveToBack (c : LruCache K V) (e : Entry K V) : LruCache K V :=
  { c with lru := (c.lru.eraseP fun e' => decide (e'.key = e.key)) ++ [e] }

/-- The loop of `maybeDeleteOldest`, over the expired front of the list. -/
def dropExpired (now : Int) : List (Entry K V) → Finset K → List (Entry K V) × Finset K
  | [], cache => ([], cache)
  | e :: es, cache =>
    if e.expires ≤ now then dropExpired now es (cache.erase e.key) else (e :: es, cache)

def maybeDeleteOldest (c : LruCache K V) (now : Int) : LruCache K V :=
  if !c.staleReturn ∧ c.maxAge > 0 then
    let (lru, cache) := dropExpired now c.lru c.cache
    { c with lru, cache }
  else c

def get (c : LruCache K V) (now : Int) (key : K) : Option V × LruCache K V :=
  match c.element key with
  | none => (none, c)
  | some e =>
    if !c.staleReturn ∧ c.maxAge > 0 ∧ e.expires ≤ now then
      (none, (c.deleteElement key).maybeDeleteOldest now)
    else
      let e := if c.maxAge > 0 ∧ c.updateAgeOnGet then { e with expires := now + c.maxAge } else e
      (some e.value, c.moveToBack e)

def pushBack (c : LruCache K V) (e : Entry K V) : LruCache K V :=
  { c with lru := c.lru ++ [e], cache := insert e.key c.cache }

def evictFront (c : LruCache K V) : LruCache K V :=
  if c.maxSize > 0 ∧ (c.lru.length : Int) > c.maxSize then
    match c.lru with
    | e :: _ => c.deleteElement e.key
    | [] => c
  else c

def setWithExpire (c : LruCache K V) (now : Int) (key : K) (value : V) (expires : Int) :
    LruCache K V :=
  match c.element key with
  | some _ => (c.moveToBack { key, value, expires }).maybeDeleteOldest now
  | none => (c.pushBack { key, value, expires }).evictFront.maybeDeleteOldest now

def set (c : LruCache K V) (now : Int) (key : K) (value : V) : LruCache K V :=
  c.setWithExpire now key value (if c.maxAge > 0 then now + c.maxAge else 0)

def delete (c : LruCache K V) (key : K) : LruCache K V :=
  match c.element key with
  | some _ => c.deleteElement key
  | none => c

/-- `c.CloneTo(n)`: the elements of `c` replace those of `n`, whose options stay. -/
def cloneTo (c n : LruCache K V) : LruCache K V :=
  { n with lru := c.lru, cache := (c.lru.map (·.key)).toFinset }

end LruCache

end Mihomo.Lru
