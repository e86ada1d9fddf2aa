import Mathlib.Algebra.Group.Int.Defs
import Mathlib.Data.List.AList

/-!
# The refreshing cache

`Cache` of `component/dev_cache`: values with a refresh deadline over a storage backend, and at most
one refresh in flight for a key. A flight is an object of the heap and is named by its index. Every
operation holds the mutex from its first to its last access; the worker of a flight runs `fetch`
outside of it and takes one step, `complete`, when `fetch` has returned.

Times are nanoseconds since the epoch and clock readings are arguments.
-/

namespace Mihomo.DevCache

universe u
variable {K V E B : Type u}

def retryDelay : Int := 3 * 10 ^ 9

def retentionPeriod : Int := 30 * 24 * 3600 * 10 ^ 9

def zeroTime : Int := -62135596800 * 10 ^ 9

structure Stored (V : Type u) where
  value : V
  updatedAt : Int

/-- The `backend` interface with the `Snapshot` of its two implementations. -/
class Backend (K V B : Type u) where
  getWithExpire : B → K → Option (Stored V × Int) × B
  setWithExpire : B → K → Stored V → Int → B
  delete : B → K → B
  clear : B → B
  snapshot : B → List (K × Stored V × Int)

inductive Err (E : Type u) where
  | invalidated
  | fetch (e : E)

structure Result (V E : Type u) where
  value : V
  err : Option (Err E)

/-- A flight and its worker. `result` counts as written only once something was
assigned to it; `outcome` is what `fetch` returned, once it has. -/
structure Flight (K V E : Type u) where
  key : K
  result : Option (Result V E)
  writes : Nat
  closed : Bool
  outcome : Option (V × Option (Err E))

structure Table (K V E : Type u) where
  flights : AList fun _ : K => Nat
  heap : List (Flight K V E)

structure Cache (K V E B : Type u) where
  data : B
  retry : AList fun _ : K => Int
  table : Table K V E

inductive Stop where
  | blocked
  | nilDereference
  | closeOfClosedChannel
  deriving DecidableEq

def Cache.new (data : B) : Cache K V E B :=
  { data, retry := ∅, table := { flights := ∅, heap := [] } }

namespace Table

def settle (t : Table K V E) (i : Nat) (r : Result V E) : Except Stop (Table K V E) :=
  match t.heap[i]? with
  | none => .error .nilDereference
  | some f =>
    if f.closed then .error .closeOfClosedChannel
    else .ok { t with
      heap := t.heap.set i { f with result := some r, writes := f.writes + 1, closed := true } }

variable [DecidableEq K]

def invalidateFlight [Inhabited V] (t : Table K V E) (key : K) : Except Stop (Table K V E) :=
  match t.flights.lookup key with
  | none => .ok t
  | some i =>
    { t with flights := t.flights.erase key }.settle i { value := default, err := some .invalidated }

/-- The loops over `c.flights`. -/
def invalidateFlights [Inhabited V] : List K → Table K V E → Except Stop (Table K V E)
  | [], t => .ok t
  | key :: keys, t =>
    match t.invalidateFlight key with
    | .ok t => invalidateFlights keys t
    | .error stop => .error stop

def start (t : Table K V E) (key : K) : Table K V E where
  flights := t.flights.insert key t.heap.length
  heap := t.heap ++ [{ key, result := none, writes := 0, closed := false, outcome := none }]

/-- What a waiter that holds a flight reads when `done` is closed. -/
def observe (t : Table K V E) (i : Nat) : Option (Result V E) :=
  match t.heap[i]? with
  | some f => if f.closed then f.result else none
  | none => none

end Table

namespace Cache
variable [DecidableEq K] [Backend K V B]

def expire (c : Cache K V E B) (key : K) : Cache K V E B :=
  { c with data := Backend.delete V c.data key, retry := c.retry.erase key }

def get (c : Cache K V E B) (now : Int) (key : K) : Option (Stored V × Int) × Cache K V E B :=
  match Backend.getWithExpire c.data key with
  | (some (v, due), data) =>
    if v.updatedAt ≤ now - retentionPeriod then (none, { c with data }.expire key)
    else (some (v, due), { c with data })
  | (none, data) => (none, { c with data })

def getWithExpireValidated (c : Cache K V E B) (now : Int) (key : K) (accept : V → Bool) :
    Option (V × Int) × Cache K V E B :=
  match c.get now key with
  | (some (v, due), c) => if accept v.value then (some (v.value, due), c) else (none, c.expire key)
  | (none, c) => (none, c)

def setWithExpire (c : Cache K V E B) (now : Int) (key : K) (value : V) (due : Int) :
    Cache K V E B :=
  { c with
    data := Backend.setWithExpire c.data key { value, updatedAt := now } due
    retry := c.retry.erase key }

def restore (c : Cache K V E B) (now now' : Int) (key : K) (value : V) (due updatedAt : Int) :
    Cache K V E B :=
  if updatedAt > now - retentionPeriod then
    match c.get now' key with
    | (some _, c) => c
    | (none, c) => { c with data := Backend.setWithExpire c.data key { value, updatedAt } due }
  else c

/-- The body of the loop of `snapshot`. -/
def addItem (now : Int) (acc : List (K × Stored V × Int) × Cache K V E B)
    (item : K × Stored V × Int) : List (K × Stored V × Int) × Cache K V E B :=
  if item.2.1.updatedAt ≤ now - retentionPeriod then (acc.1, acc.2.expire item.1)
  else (acc.1 ++ [item], acc.2)

def snapshot (c : Cache K V E B) (now : Int) : List (K × Stored V × Int) × Cache K V E B :=
  (Backend.snapshot c.data).foldl (addItem now) ([], c)

variable [Inhabited V]

def delete (c : Cache K V E B) (key : K) : Except Stop (Cache K V E B) :=
  match c.table.invalidateFlight key with
  | .ok table => .ok { c.expire key with table }
  | .error stop => .error stop

def computeWithExpire (c : Cache K V E B) (now now' : Int) (key : K)
    (f : V → Int → Bool → V × Int × Bool) : Except Stop (Cache K V E B) :=
  let (stored, c) := c.get now key
  let (v, due, remove) :=
    match stored with
    | some (v, due) => f v.value due true
    | none => f default zeroTime false
  if remove then c.delete key
  else .ok { c with data := Backend.setWithExpire c.data key { value := v, updatedAt := now' } due }

def clear (c : Cache K V E B) : Except Stop (Cache K V E B) :=
  match c.table.invalidateFlights c.table.flights.keys with
  | .ok table => .ok { data := Backend.clear K V c.data, retry := ∅, table }
  | .error stop => .error stop

/-- The first loop of `DeleteMatching`. -/
def deleteAll : List K → Cache K V E B → Except Stop (Cache K V E B)
  | [], c => .ok c
  | key :: keys, c =>
    match c.delete key with
    | .ok c => deleteAll keys c
    | .error stop => .error stop

/-- The second loop of `DeleteMatching` and of `MarkStale`. -/
def invalidateMatching (c : Cache K V E B) (matching : K → Bool) : Except Stop (Cache K V E B) :=
  match c.table.invalidateFlights (c.table.flights.keys.filter matching) with
  | .ok table => .ok { c with table }
  | .error stop => .error stop

def matchingItems (matching : K → Bool) (items : List (K × Stored V × Int)) :
    List (K × Stored V × Int) :=
  items.filter fun item => matching item.1

def deleteMatching (c : Cache K V E B) (now : Int) (matching : K → Bool) :
    Except Stop (Nat × Cache K V E B) :=
  let (items, c) := c.snapshot now
  let items := matchingItems matching items
  match c.deleteAll (items.map (·.1)) with
  | .error stop => .error stop
  | .ok c =>
    match c.invalidateMatching matching with
    | .error stop => .error stop
    | .ok c => .ok (items.length, c)

/-- The body of the first loop of `MarkStale`. -/
def markItem (c : Cache K V E B) (item : K × Stored V × Int) : Cache K V E B :=
  { c with data := Backend.setWithExpire c.data item.1 item.2.1 0, retry := c.retry.erase item.1 }

def markStale (c : Cache K V E B) (now : Int) (matching : K → Bool) :
    Except Stop (Cache K V E B) :=
  let (items, c) := c.snapshot now
  ((matchingItems matching items).foldl markItem c).invalidateMatching matching

end Cache

inductive Ticket (V : Type u) where
  | ready (v : V)
  | flight (i : Nat)

namespace Cache
variable [DecidableEq K] [Backend K V B]

def startFlight (c : Cache K V E B) (key : K) : Ticket V × Cache K V E B :=
  (.flight c.table.heap.length, { c with table := c.table.start key })

def refresh (c : Cache K V E B) (now now' : Int) (key : K) : Ticket V × Cache K V E B :=
  match c.table.flights.lookup key with
  | some i => (.flight i, c)
  | none =>
    if now < (c.retry.lookup key).getD zeroTime then
      match c.get now' key with
      | (some (v, _), c) => (.ready v.value, c)
      | (none, c) => c.startFlight key
    else c.startFlight key

def publish (c : Cache K V E B) (now now' : Int) (key : K) (v : V) (due : Int)
    (err : Option (Err E)) : Cache K V E B :=
  match err with
  | none =>
    let data :=
      if due = zeroTime then c.data
      else Backend.setWithExpire c.data key { value := v, updatedAt := now } due
    { c with data, retry := c.retry.erase key }
  | some _ =>
    match c.get now key with
    | (some _, c) => { c with retry := c.retry.insert key (now' + retryDelay) }
    | (none, c) => c

/-- The worker of flight `i` after `fetch` returned `(v, due, err)`. -/
def complete (c : Cache K V E B) (now now' : Int) (i : Nat) (v : V) (due : Int)
    (err : Option (Err E)) : Except Stop (Cache K V E B) :=
  match c.table.heap[i]? with
  | none => .error .blocked
  | some f =>
    if f.outcome.isSome then .error .blocked
    else
      let table := { c.table with heap := c.table.heap.set i { f with outcome := some (v, err) } }
      if table.flights.lookup f.key = some i then
        let c := { c with table := { table with flights := table.flights.erase f.key } }
        let c := c.publish now now' f.key v due err
        match c.table.settle i { value := v, err } with
        | .ok table => .ok { c with table }
        | .error stop => .error stop
      else .ok { c with table }

end Cache

inductive Op (K V E : Type u) where
  | refresh (now now' : Int) (key : K)
  | complete (now now' : Int) (i : Nat) (v : V) (due : Int) (err : Option (Err E))
  | delete (key : K)
  | deleteMatching (now : Int) (matching : K → Bool)
  | markStale (now : Int) (matching : K → Bool)
  | clear
  | setWithExpire (now : Int) (key : K) (value : V) (due : Int)
  | get (now : Int) (key : K)
  | getWithExpireValidated (now : Int) (key : K) (accept : V → Bool)
  | computeWithExpire (now now' : Int) (key : K) (f : V → Int → Bool → V × Int × Bool)
  | restore (now now' : Int) (key : K) (value : V) (due updatedAt : Int)
  | snapshot (now : Int)

def Cache.step [DecidableEq K] [Inhabited V] [Backend K V B] (c : Cache K V E B) :
    Op K V E → Except Stop (Cache K V E B)
  | .refresh now now' key => .ok (c.refresh now now' key).2
  | .complete now now' i v due err => c.complete now now' i v due err
  | .delete key => c.delete key
  | .deleteMatching now matching => (c.deleteMatching now matching).map (·.2)
  | .markStale now matching => c.markStale now matching
  | .clear => c.clear
  | .setWithExpire now key value due => .ok (c.setWithExpire now key value due)
  | .get now key => .ok (c.get now key).2
  | .getWithExpireValidated now key accept => .ok (c.getWithExpireValidated now key accept).2
  | .computeWithExpire now now' key f => c.computeWithExpire now now' key f
  | .restore now now' key value due updatedAt => .ok (c.restore now now' key value due updatedAt)
  | .snapshot now => .ok (c.snapshot now).2

end Mihomo.DevCache
