import Mihomo.FakeIP.Pool

/-!
# Persistent pools

Pools over the `FakeIpStore` of a cache file: `cachefileStore`, and the part of
`Pool` that keeps the allocator's position in the same key space as the mappings.
-/

namespace Mihomo.FakeIP
open Go Net
open CacheFile (FakeIpStore)

def offsetKey : Str := ascii "key-offset-fake-ip"

def cycleKey : Str := ascii "key-cycle-fake-ip"

instance : Store FakeIpStore where
  persistent := true
  getByHost s host := (s.getByHost host, s)
  putMapping s host ip := s.mutate (.putMapping host ip)
  getByIP s ip := (s.getByIP ip, s)
  exist s ip := (s.getByIP ip).isSome
  flushFakeIP s := s.mutate .flushFakeIP

namespace Pool

def storeState (p : Pool FakeIpStore) : Pool FakeIpStore :=
  let store := (p.store.mutate (.putByHost offsetKey p.offset)).2
  { p with store := if p.cycle then (store.mutate (.putByHost cycleKey p.offset)).2 else store }

def restoreState (p : Pool FakeIpStore) : Pool FakeIpStore :=
  let p := if (p.store.getByHost cycleKey).isSome then { p with cycle := true } else p
  match p.store.getByHost offsetKey with
  | some offset => if p.ipnet.contains offset then { p with offset } else p.flushFakeIP.2
  | none => if Store.exist p.store p.first then p.flushFakeIP.2 else p

/-- `New` with persistence, over the store of the prefix's family. -/
def newPersistent (ipnet : Prefix) (store : FakeIpStore) : Option (Pool FakeIpStore) :=
  (new ipnet store).map restoreState

end Pool

/-- What happens to the addresses of one family in one cache file: a pool is
created over them, now or after a restart, and used. -/
inductive Act (fam : Family) where
  | new (bits : BitVec fam.bits) (len : Fin (fam.bits + 1))
  | lookup (host : Str)
  | storeState

/-- The current pool after an act; a prefix that `New` rejects leaves it in place. -/
def Pool.act {fam : Family} (p : Pool FakeIpStore) : Act fam → Pool FakeIpStore
  | .new bits len => (newPersistent (.mk fam bits len) p.store).getD p
  | .lookup host => (p.lookupWithError host).2
  | .storeState => p.storeState

end Mihomo.FakeIP
