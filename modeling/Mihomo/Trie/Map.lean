import Mihomo.Trie.Set

/-!
# The succinct domain map

`DomainMap` keeps a value for each terminal of a domain set, in the order of the nodes. The start of a
node's edges comes from the cached distance to the nearest entry of the select index where that fits
into a byte.
-/

namespace Mihomo.Trie
open Go Lib

def domainMapSelectOverflow : Nat := 255

structure DomainMapIndex where
  set : DomainSet
  selectDeltas : List Nat
  deriving DecidableEq, Repr

def selectDelta (ss : DomainSet) (ordinal : Nat) : Except Fault Nat := do
  let position ← selectIthOne ss.labelBitmap ordinal
  let nearest ← inRange ss.selects[ordinal / 32]?
  let delta : Int := position - nearest
  .ok (if delta < 0 ∨ delta ≥ domainMapSelectOverflow then domainMapSelectOverflow else delta.toNat)

def initSelectDeltas (ss : DomainSet) : Except Fault (List Nat) :=
  (List.range ss.labels.length).mapM (selectDelta ss)

namespace DomainMapIndex

variable (ix : DomainMapIndex)

def childStart (ordinal delta : Nat) : Except Fault Nat :=
  if delta = domainMapSelectOverflow then (selectIthOne ix.set.labelBitmap ordinal).map (· + 1)
  else (inRange ix.set.selects[ordinal / 32]?).map (· + delta + 1)

def edgesOf (nodeID : Nat) : Except Fault Nat :=
  if nodeID = 0 then .error .index
  else do
    let delta ← inRange ix.selectDeltas[nodeID - 1]?
    ix.childStart (nodeID - 1) delta

def skipEdges (nodeID : Nat) (label : UInt8) : Nat → Nat → Except Fault Nat
  | 0, _ => .error .fuel
  | fuel + 1, bitmapIndex => do
    if ← getBit ix.set.labelBitmap bitmapIndex then .ok bitmapIndex
    else if (← ix.set.labelAt bitmapIndex nodeID) < label then
      skipEdges nodeID label fuel (bitmapIndex + 1)
    else .ok bitmapIndex

def findEdge (nodeID bitmapIndex : Nat) (label : UInt8) : Except Fault (Option Nat) := do
  let bitmapIndex ← ix.skipEdges nodeID label ix.set.scanFuel bitmapIndex
  if ← getBit ix.set.labelBitmap bitmapIndex then .ok none
  else if (← ix.set.labelAt bitmapIndex nodeID) ≠ label then .ok none
  else .ok (some bitmapIndex)

/-- The node at which the labels below `nodeID` start, and its edges: `nodeID` itself if it
is the root, and otherwise the node behind its `.` edge. -/
def enter (nodeID : Nat) : Except Fault (Option (Nat × Nat)) :=
  if nodeID = 0 then .ok (some (0, 0))
  else do
    match ← ix.findEdge nodeID (← ix.edgesOf nodeID) domainStepByte with
    | none => .ok none
    | some bitmapIndex =>
      let child := bitmapIndex - nodeID + 1
      .ok (some (child, ← ix.edgesOf child))

/-- The walk along one label, for the `fuel` bytes from `offset`. -/
def staticWalk (part : Str) : Nat → Nat → Nat → Nat → Except Fault (Option Nat)
  | 0, _, staticNode, _ => .ok (some staticNode)
  | fuel + 1, offset, staticNode, staticIndex => do
    let label ← revLowerAt part offset
    match ← ix.findEdge staticNode staticIndex label with
    | none => .ok none
    | some staticIndex =>
      if label = complexWildcardByte then .ok none
      else
        let child := staticIndex - staticNode + 1
        let next ← (if offset + 1 < part.length then ix.edgesOf child else .ok staticIndex)
        staticWalk part fuel (offset + 1) child next

/-- The last loop of `match`: the `*` edge and then the `+` edge of the node. -/
def scanWildcards (below : Nat → Except Fault (Option Nat)) (part : Str) (nodeID : Nat) :
    Nat → Nat → Except Fault (Option Nat)
  | 0, _ => .error .fuel
  | fuel + 1, bitmapIndex => do
    if ← getBit ix.set.labelBitmap bitmapIndex then .ok none
    else
      let label ← ix.set.labelAt bitmapIndex nodeID
      let childID := bitmapIndex - nodeID + 1
      if label = wildcardByte then
        let terminal ← (if part = wildcard then .ok none else below childID)
        if terminal.isSome then .ok terminal
        else scanWildcards below part nodeID fuel (bitmapIndex + 1)
      else if label = complexWildcardByte then .ok (some childID)
      else if label > complexWildcardByte then .ok none
      else scanWildcards below part nodeID fuel (bitmapIndex + 1)

end DomainMapIndex

def lastPart (domain : Str) : Str := (domain.reverse.takeWhile (· ≠ domainStepByte)).reverse

def remaining (domain : Str) : Str :=
  ((domain.reverse.dropWhile (· ≠ domainStepByte)).drop 1).reverse

/-- `match`; `none` for `-1`. -/
def DomainMapIndex.match (ix : DomainMapIndex) : Nat → Nat → Str → Except Fault (Option Nat)
  | 0, _, _ => .error .fuel
  | fuel + 1, nodeID, domain =>
    if domain = [] then do
      if ← getBit ix.set.leaves nodeID then .ok (some nodeID) else .ok none
    else do
      match ← ix.enter nodeID with
      | none => .ok none
      | some (nodeID, bitmapIndex) =>
        let part := normalize (lastPart domain)
        let staticNode ← ix.staticWalk part part.length 0 nodeID bitmapIndex
        let terminal ←
          match staticNode with
          | none => .ok none
          | some node => ix.match fuel node (remaining domain)
        if terminal.isSome then .ok terminal
        else
          ix.scanWildcards (fun child => ix.match fuel child (remaining domain)) part nodeID
            ix.set.scanFuel bitmapIndex

variable {T : Type}

structure DomainMap (T : Type) where
  index : DomainMapIndex
  values : List T

/-- `Lookup`; a nil map is empty. The values are read at the rank of the leaf. -/
def lookup (mapping : Option (DomainMap T)) (domain : Str) : Except Fault (Option T) :=
  match mapping with
  | none => .ok none
  | some mapping =>
    if mapping.values = [] then .ok none
    else do
      match ← mapping.index.match (domain.length + 1) 0 domain with
      | none => .ok none
      | some nodeID =>
        if nodeID / 64 < words mapping.index.set.leaves then
          some <$> inRange mapping.values[rank1 mapping.index.set.leaves nodeID]?
        else .error .index

structure DomainMapBuilder (T : Type) where
  keys : List Str
  valueKeys : Str → Option T

namespace DomainMapBuilder

def new : DomainMapBuilder T := ⟨[], fun _ => none⟩

def insert (b : DomainMapBuilder T) (domain : Str) (value : T) :
    Except InvalidDomain (DomainMapBuilder T) :=
  match insertKeys b.keys domain with
  | .error e => .error e
  | .ok keys =>
    .ok ⟨keys, fun k => if k ∈ keys.drop b.keys.length then some value else b.valueKeys k⟩

/-- `Build`; the value of a key that was never given one is the zero value. -/
def build [Inhabited T] (b : DomainMapBuilder T) : Except Fault (Option (DomainMap T)) := do
  let (set, terminals) ← buildDomainSet b.keys
  match set with
  | none => .ok none
  | some set =>
    let deltas ← initSelectDeltas set
    .ok (some ⟨⟨set, deltas⟩, terminals.map fun k => (b.valueKeys k).getD default⟩)

end DomainMapBuilder

end Mihomo.Trie
