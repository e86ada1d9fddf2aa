import Mihomo.Net.Slice
import Mathlib.Data.List.AList

/-!
# The persistent fake-IP store

`FakeIpStore` of `component/profile/cachefile`: one bucket of a database file that maps hosts to
addresses and addresses to hosts. A mutation remembers the confirmed values of the keys it is about to
touch in `before`, commits, and then drops what it remembered; until then reads of those keys are
answered from `before`. A commit publishes its result at once before it returns, and may fail with or
without having published.
-/

namespace Mihomo.CacheFile
open Go Net

abbrev Bucket := AList fun _ : Str => Str

/-- Remembered values; `none` is the nil slice of an absent key. -/
abbrev Overlay := AList fun _ : Str => Option Str

inductive DbError where
  | keyRequired
  | keyTooLarge
  | valueTooLarge
  deriving DecidableEq

def maxKeySize : Nat := 32768

def maxValueSize : Nat := 2 ^ 31 - 2

def Bucket.put (b : Bucket) (key value : Str) : Except DbError Bucket :=
  if key.length = 0 then .error .keyRequired
  else if key.length > maxKeySize then .error .keyTooLarge
  else if value.length > maxValueSize then .error .valueTooLarge
  else .ok (b.insert key value)

def Bucket.delete (b : Bucket) (key : Str) : Bucket := b.erase key

/-- `Bucket.Get`, of a bucket that may not exist yet. -/
def get (bucket : Option Bucket) (key : Str) : Option Str :=
  match bucket with
  | none => none
  | some b => b.lookup key

def bytes (value : Option Str) : Str := value.getD []

/-- `bytes.Equal`, for which a nil slice equals an empty one. -/
def bytesEqual (a b : Option Str) : Bool := bytes a == bytes b

def remember (bucket : Option Bucket) (before : Overlay) (key : Str) : Option Str × Overlay :=
  match before.lookup key with
  | some value => (value, before)
  | none => (get bucket key, before.insert key (get bucket key))

inductive Mutation where
  | putMapping (host : Str) (ip : Addr)
  | putByHost (host : Str) (ip : Addr)
  | putByIP (ip : Addr) (host : Str)
  | delByIP (ip : Addr)
  | flushFakeIP
  deriving DecidableEq

namespace Mutation

/-- The `prepare` callbacks: the keys to remember. -/
def prepare (m : Mutation) (bucket : Option Bucket) (before : Overlay) : Overlay :=
  match m with
  | putMapping host ip =>
    let (oldHost, before) := remember bucket before ip.asSlice
    let before := (remember bucket before host).2
    if (bytes oldHost).length > 0 then (remember bucket before (bytes oldHost)).2 else before
  | putByHost host _ => (remember bucket before host).2
  | putByIP ip _ => (remember bucket before ip.asSlice).2
  | delByIP ip =>
    let (host, before) := remember bucket before ip.asSlice
    if (bytes host).length > 0 then (remember bucket before (bytes host)).2 else before
  | flushFakeIP =>
    match bucket with
    | none => before
    | some b => b.keys.foldl (fun before key => (remember bucket before key).2) before

/-- The `change` callbacks; the result is the bucket, which a flush deletes. -/
def change (m : Mutation) (bucket : Bucket) : Except DbError (Option Bucket) :=
  match m with
  | putMapping host ip => do
    let oldHost := bytes (bucket.lookup ip.asSlice)
    let bucket := if oldHost.length > 0 then bucket.delete oldHost else bucket
    let bucket ← bucket.put ip.asSlice host
    let bucket ← bucket.put host ip.asSlice
    return some bucket
  | putByHost host ip => do
    let bucket ← bucket.put host ip.asSlice
    return some bucket
  | putByIP ip host => do
    let bucket ← bucket.put ip.asSlice host
    return some bucket
  | delByIP ip =>
    let host := bytes (bucket.lookup ip.asSlice)
    let bucket := bucket.delete ip.asSlice
    .ok (some (if host.length > 0 then bucket.delete host else bucket))
  | flushFakeIP => .ok none

end Mutation

/-- The loop of `mutate` that brings remembered values back. -/
def repair : List (Sigma fun _ : Str => Option Str) → Bucket → Except DbError Bucket
  | [], bucket => .ok bucket
  | ⟨key, value⟩ :: rest, bucket =>
    if bytesEqual (bucket.lookup key) value then repair rest bucket
    else
      match value with
      | none => repair rest (bucket.delete key)
      | some value =>
        match bucket.put key value with
        | .ok bucket => repair rest bucket
        | .error err => .error err

def pending (db : Option Bucket) (before : Overlay) : Overlay where
  entries := before.entries.filter fun e => !bytesEqual (get db e.1) e.2
  nodupKeys := before.nodupKeys.sublist List.filter_sublist

structure Flight where
  mutation : Mutation
  published : Bool

structure FakeIpStore where
  db : Option Bucket
  before : Overlay
  /-- The holder of `writeMu`. -/
  flight : Option Flight

namespace FakeIpStore

def transaction (s : FakeIpStore) (m : Mutation) : Except DbError (Option Bucket) :=
  match repair s.before.entries (s.db.getD ∅) with
  | .ok bucket => m.change bucket
  | .error err => .error err

def begin (s : FakeIpStore) (m : Mutation) : FakeIpStore :=
  { s with before := m.prepare s.db s.before, flight := some ⟨m, false⟩ }

def publish (s : FakeIpStore) (m : Mutation) (db : Option Bucket) : FakeIpStore :=
  { s with db, flight := some ⟨m, true⟩ }

def confirm (s : FakeIpStore) : FakeIpStore := { s with before := ∅, flight := none }

def abandon (s : FakeIpStore) : FakeIpStore :=
  { s with before := pending s.db s.before, flight := none }

/-- `mutate` from start to end, with a commit that does not fail by itself. -/
def mutate (s : FakeIpStore) (m : Mutation) : Option DbError × FakeIpStore :=
  let s := s.begin m
  match s.transaction m with
  | .ok db => (none, (s.publish m db).confirm)
  | .error err => (some err, s.abandon)

def getByHost (s : FakeIpStore) (host : Str) : Option Addr :=
  match s.before.lookup host with
  | some value => Addr.fromSlice (bytes value)
  | none => (get s.db host).bind Addr.fromSlice

def getByIP (s : FakeIpStore) (ip : Addr) : Option Str :=
  match s.before.lookup ip.asSlice with
  | some value => if (bytes value).length > 0 then some (bytes value) else none
  | none => get s.db ip.asSlice

end FakeIpStore

/-- The steps of mutations; reads may happen between any two of them. `finish`
carries whether the commit returned without an error. -/
inductive Event where
  | begin (m : Mutation)
  | publish
  | finish (success : Bool)
  deriving DecidableEq

inductive Blocked where
  | blocked
  deriving DecidableEq

def FakeIpStore.step (s : FakeIpStore) : Event → Except Blocked FakeIpStore
  | .begin m =>
    match s.flight with
    | none => .ok (s.begin m)
    | some _ => .error .blocked
  | .publish =>
    match s.flight with
    | some ⟨m, false⟩ =>
      match s.transaction m with
      | .ok db => .ok (s.publish m db)
      | .error _ => .error .blocked
    | _ => .error .blocked
  | .finish true =>
    match s.flight with
    | some ⟨_, true⟩ => .ok s.confirm
    | _ => .error .blocked
  | .finish false =>
    match s.flight with
    | some _ => .ok s.abandon
    | none => .error .blocked

end Mihomo.CacheFile
