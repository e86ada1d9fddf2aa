import Mihomo.Lru.Cache
import Mihomo.CacheFile.FakeIpStore

/-!
# The fake-IP pool

`Pool` of `component/fakeip`: an allocator that walks through the usable addresses of a prefix, over a
store that maps hosts to addresses and back. Hosts are lowered before they reach the store.
-/

namespace Mihomo.FakeIP
open Go Net Lru
open CacheFile (DbError)

universe u

/-- The `store` interface. Reads return the store they leave behind, since they may
change the recency of what they find. -/
class Store (σ : Type u) where
  /-- The type assertion `p.store.(*cachefileStore)`. -/
  persistent : Bool
  getByHost : σ → Str → Option Addr × σ
  putMapping : σ → Str → Addr → Option DbError × σ
  getByIP : σ → Addr → Option Str × σ
  exist : σ → Addr → Bool
  flushFakeIP : σ → Option DbError × σ

structure Pool (σ : Type u) where
  gateway : Addr
  first : Addr
  last : Addr
  offset : Addr
  cycle : Bool
  ipnet : Prefix
  store : σ

namespace Pool
variable {σ : Type u}

/-- `New` up to the choice of the store and `restoreState`. -/
def new (ipnet : Prefix) (store : σ) : Option (Pool σ) :=
  let gateway := ipnet.maskedAddr.next
  let first := gateway.next.next.next
  let last := ipnet.lastIP
  if !ipnet.isValid || !first.isValid || !first.less last then none
  else some { gateway, first, last, offset := first.prev, cycle := false, ipnet, store }

def get (p : Pool σ) : Addr × Pool σ :=
  let offset := p.offset.next
  if !offset.less p.last then (p.first, { p with cycle := true, offset := p.first })
  else (offset, { p with offset })

variable [Store σ]

/-- The part of `LookupWithError` under the pool lock, for a lowered host. -/
def allocate (p : Pool σ) (host : Str) : Except DbError Addr × Pool σ :=
  match Store.getByHost p.store host with
  | (some ip, store) => (.ok ip, { p with store })
  | (none, store) =>
    let (ip, q) := { p with store }.get
    match Store.putMapping q.store host ip with
    | (some err, store) => (.error err, { p with store })
    | (none, store) => (.ok ip, { q with store })

def lookupWithError (p : Pool σ) (host : Str) : Except DbError Addr × Pool σ :=
  let host := toLower host
  if Store.persistent σ then
    match Store.getByHost p.store host with
    | (some ip, store) => (.ok ip, { p with store })
    | (none, store) => { p with store }.allocate host
  else p.allocate host

/-- `Lookup` logs the error and returns the zero address then. -/
def lookup (p : Pool σ) (host : Str) : Addr × Pool σ :=
  match p.lookupWithError host with
  | (.ok ip, p) => (ip, p)
  | (.error _, p) => (.zero, p)

def lookBack (p : Pool σ) (ip : Addr) : Option Str × Pool σ :=
  if p.ipnet.contains ip then
    let (host, store) := Store.getByIP p.store ip
    (host, { p with store })
  else (none, p)

def exist (p : Pool σ) (ip : Addr) : Bool :=
  if p.ipnet.contains ip then Store.exist p.store ip else false

def flushFakeIP (p : Pool σ) : Option DbError × Pool σ :=
  match Store.flushFakeIP p.store with
  | (none, store) => (none, { p with store, cycle := false, offset := p.first.prev })
  | (some err, store) => (some err, { p with store })

end Pool

structure MemoryStore where
  cacheIP : LruCache Str Addr
  cacheHost : LruCache Addr Str

namespace MemoryStore

/-- Both caches are built without `WithAge`, so they never look at the clock. -/
def noClock : Int := 0

def new (size : Int) : MemoryStore :=
  { cacheIP := .new size, cacheHost := .new size }

def getByHost (m : MemoryStore) (host : Str) : Option Addr × MemoryStore :=
  match m.cacheIP.get noClock host with
  | (some ip, cacheIP) =>
    -- ensure ip --> host on head of linked list
    (some ip, { m with cacheIP, cacheHost := (m.cacheHost.get noClock ip).2 })
  | (none, cacheIP) => (none, { m with cacheIP })

def putByHost (m : MemoryStore) (host : Str) (ip : Addr) : MemoryStore :=
  { m with cacheIP := m.cacheIP.set noClock host ip }

def getByIP (m : MemoryStore) (ip : Addr) : Option Str × MemoryStore :=
  match m.cacheHost.get noClock ip with
  | (some host, cacheHost) =>
    -- ensure host --> ip on head of linked list
    (some host, { m with cacheHost, cacheIP := (m.cacheIP.get noClock host).2 })
  | (none, cacheHost) => (none, { m with cacheHost })

def putByIP (m : MemoryStore) (ip : Addr) (host : Str) : MemoryStore :=
  { m with cacheHost := m.cacheHost.set noClock ip host }

def delByIP (m : MemoryStore) (ip : Addr) : MemoryStore :=
  match m.cacheHost.get noClock ip with
  | (some host, cacheHost) =>
    { m with cacheIP := m.cacheIP.delete host, cacheHost := cacheHost.delete ip }
  | (none, cacheHost) => { m with cacheHost := cacheHost.delete ip }

def putMapping (m : MemoryStore) (host : Str) (ip : Addr) : MemoryStore :=
  ((m.delByIP ip).putByIP ip host).putByHost host ip

def exist (m : MemoryStore) (ip : Addr) : Bool := m.cacheHost.exist ip

/-- `m.CloneTo(n)` for two memory stores: `n` after it. -/
def cloneTo (m n : MemoryStore) : MemoryStore :=
  { cacheIP := m.cacheIP.cloneTo n.cacheIP, cacheHost := m.cacheHost.cloneTo n.cacheHost }

def flushFakeIP (m : MemoryStore) : MemoryStore :=
  { cacheIP := m.cacheIP.clear, cacheHost := m.cacheHost.clear }

instance : Store MemoryStore where
  persistent := false
  getByHost := getByHost
  putMapping m host ip := (none, m.putMapping host ip)
  getByIP := getByIP
  exist := exist
  flushFakeIP m := (none, m.flushFakeIP)

end MemoryStore

namespace Pool

def newMemory (ipnet : Prefix) (size : Int) : Option (Pool MemoryStore) :=
  new ipnet (MemoryStore.new size)

def cloneFrom (p o : Pool MemoryStore) : Pool MemoryStore :=
  { p with store := o.store.cloneTo p.store }

end Pool

end Mihomo.FakeIP
