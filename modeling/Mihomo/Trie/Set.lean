import Mihomo.Go.Case
import Mihomo.Lib.Louds
import Mihomo.Trie.Domain
import Mathlib.Data.List.Sort

/-!
# The succinct domain set

The patterns are turned into byte strings that read from the last byte of the domain to the first,
sorted, and written down as a level-order bit-packed tree. `has` walks that tree byte by byte with a
stack of the `*` edges it has passed. Bitmaps are lists of bits; an access fails outside the 64-bit
words that hold them.
-/

namespace Mihomo.Trie
open Go Lib

inductive Fault where
  | index
  | fuel
  deriving DecidableEq, Repr

def inRange {α : Type} : Option α → Except Fault α
  | some a => .ok a
  | none => .error .index

abbrev Bitmap := List Bool

def words (bm : Bitmap) : Nat := (bm.length + 63) / 64

def getBit (bm : Bitmap) (i : Nat) : Except Fault Bool :=
  if i / 64 < words bm then .ok (bm.getD i false) else .error .index

def setBit (bm : Bitmap) (i : Nat) (v : Bool) : Bitmap :=
  (bm ++ List.replicate (i + 1 - bm.length) false).modify i (· || v)

def pushBit (bm : Bitmap) (v : Bool) : Bitmap := setBit bm bm.length v

/-- `countZeros`: the zeros before position `i`. -/
def countZeros (bm : Bitmap) (i : Nat) : Except Fault Nat :=
  if i / 64 < words bm then .ok (i - rank1 bm i) else .error .index

def selectIthOne (bm : Bitmap) (i : Nat) : Except Fault Nat := inRange (select1 bm i)

/-- `DomainSet`; `selects` holds the position of every 32nd one, and the index of ranks
is left to `rank1`. -/
structure DomainSet where
  leaves : Bitmap
  labelBitmap : Bitmap
  labels : List UInt8
  selects : List Nat
  deriving DecidableEq, Repr

/-- `bitmap.IndexSelect32R64`. -/
def indexSelect32 (bm : Bitmap) : List Nat :=
  (List.range ((bm.count true + 31) / 32)).filterMap fun i => select1 bm (32 * i)

/-! ### Construction -/

def compact : List Str → List Str
  | [] => []
  | [k] => [k]
  | k :: k' :: ks => if k = k' then compact (k' :: ks) else k :: compact (k' :: ks)

def sortKeys (keys : List Str) : List Str := keys.insertionSort (· ≤ ·)

/-- The runs of keys with the same byte at `col`, as the two inner loops cut them. -/
def groupKeys (col : Nat) : List Str → Except Fault (List (UInt8 × List Str))
  | [] => .ok []
  | k :: ks => do
    let c ← inRange k[col]?
    match ← groupKeys col ks with
    | [] => .ok [(c, [k])]
    | (c', g) :: gs => if c = c' then .ok ((c, k :: g) :: gs) else .ok ((c, [k]) :: (c', g) :: gs)

/-- The arrays under construction, and the keys passed to `onTerminal`. -/
structure Build where
  leaves : Bitmap
  labelBitmap : Bitmap
  labels : List UInt8
  terminals : List Str
  nodeID : Nat

/-- The loop body for one queue element, given as the slice of keys it stands for: the
elements it adds to the next queue. -/
def visit (col : Nat) (b : Build) : List Str → Except Fault (List (List Str) × Build)
  | [] => .error .index
  | k :: ks => do
    let terminal := k.length = col
    let groups ← groupKeys col (if terminal then ks else k :: ks)
    .ok (groups.map Prod.snd,
      { leaves := if terminal then setBit b.leaves b.nodeID true else b.leaves
        labelBitmap := (groups.map fun _ => false).foldl pushBit b.labelBitmap |> (pushBit · true)
        labels := b.labels ++ groups.map Prod.fst
        terminals := if terminal then b.terminals ++ [k] else b.terminals
        nodeID := b.nodeID + 1 })

def visitAll (col : Nat) : Build → List (List Str) → Except Fault (List (List Str) × Build)
  | b, [] => .ok ([], b)
  | b, elt :: queue => do
    let (next, b) ← visit col b elt
    let (rest, b) ← visitAll col b queue
    .ok (next ++ rest, b)

def buildLoop : Nat → Nat → List (List Str) → Build → Except Fault Build
  | _, _, [], b => .ok b
  | 0, _, _ :: _, _ => .error .fuel
  | fuel + 1, col, queue, b => do
    let (next, b) ← visitAll col b queue
    buildLoop fuel (col + 1) next b

def columns (keys : List Str) : Nat := (keys.map List.length).foldr max 0 + 1

/-- `buildDomainSet`; nil without keys. The second component lists the terminal keys in the
order of their nodes. -/
def buildDomainSet (keys : List Str) : Except Fault (Option DomainSet × List Str) :=
  if keys = [] then .ok (none, [])
  else do
    let keys := compact (sortKeys keys)
    let b ← buildLoop (columns keys) 0 [keys] ⟨[], [], [], [], 0⟩
    .ok (some ⟨b.leaves, b.labelBitmap, b.labels, indexSelect32 b.labelBitmap⟩, b.terminals)

/-- The key of a path: the labels are joined and reversed, with `+` for an empty first one. -/
def keyOf (parts : List Str) : Str :=
  reverse (joinDomain (if parts.head? = some dotWildcard then complexWildcard :: parts.tail else parts))

/-- `DomainSetBuilder.Insert`: the keys with those of the pattern added. -/
def insertKeys (keys : List Str) (domain : Str) : Except InvalidDomain (List Str) :=
  match validAndSplitDomain domain with
  | .error e => .error e
  | .ok parts =>
    if parts.head? = some complexWildcard then .ok (keys ++ [keyOf parts.tail, keyOf parts])
    else .ok (keys ++ [keyOf parts])

/-- The key that `NewDomainSet` makes of an enumerated domain. -/
def keyOfDomain (domain : Str) : Str :=
  reverse (if domain.head? = some domainStepByte then complexWildcard ++ domain else domain)

/-- `DomainSetBuilder.Build`. -/
def buildSet (keys : List Str) : Except Fault (Option DomainSet) := (buildDomainSet keys).map Prod.fst

/-- `NewDomainSet`, for the domains in the order in which `Foreach` lists them. -/
def newDomainSet (domains : List Str) : Except Fault (Option DomainSet) :=
  buildSet (domains.map keyOfDomain)

/-! ### Membership -/

def byteReverse (s : Str) : Str := s.reverse

/-- The key as the walk reads it: one with a byte above ASCII is lowered and reversed by
runes, and reversed again by bytes. -/
def normalize (key : Str) : Str :=
  if key.any fun b => 0x80 ≤ b then byteReverse (toLower (reverse key)) else key

def revLowerAt (key : Str) (i : Nat) : Except Fault UInt8 :=
  if i < key.length then (inRange key[key.length - 1 - i]?).map lowerByte else .error .index

/-- The end of the label that position `j` is in, in the order of the walk. -/
def labelEnd (key : Str) : Nat → Nat → Nat
  | 0, j => j
  | fuel + 1, j =>
    match revLowerAt key j with
    | .ok c => if c = domainStepByte then j else labelEnd key fuel (j + 1)
    | .error _ => j

structure Cursor where
  bmIdx : Nat
  index : Nat
  deriving DecidableEq, Repr

structure Walk where
  nodeId : Nat
  bmIdx : Nat
  i : Nat
  stack : List Cursor
  deriving DecidableEq, Repr

namespace DomainSet

variable (ss : DomainSet)

def labelAt (bmIdx nodeId : Nat) : Except Fault UInt8 :=
  if bmIdx < nodeId then .error .index else inRange ss.labels[bmIdx - nodeId]?

/-- The position after the one that ends node `nodeId - 1`. -/
def startAfter (nodeId : Nat) : Except Fault Nat :=
  if nodeId = 0 then .error .index else (selectIthOne ss.labelBitmap (nodeId - 1)).map (· + 1)

def findStep (nodeId : Nat) : Nat → Nat → Except Fault (Option Nat)
  | 0, _ => .error .fuel
  | fuel + 1, bmIdx => do
    if ← getBit ss.labelBitmap bmIdx then .ok none
    else if (← ss.labelAt bmIdx nodeId) = domainStepByte then .ok (some bmIdx)
    else findStep nodeId fuel (bmIdx + 1)

def scanFuel : Nat := ss.labelBitmap.length + 64

def backtrack (key : Str) : List Cursor → Except Fault (Walk ⊕ Bool)
  | [] => .ok (.inr false)
  | cursor :: stack => do
    let nextNodeId ← countZeros ss.labelBitmap (cursor.bmIdx + 1)
    let j := labelEnd key key.length cursor.index
    if j = key.length then
      if ← getBit ss.leaves nextNodeId then .ok (.inr true) else backtrack key stack
    else
      let nextBmIdx ← ss.startAfter nextNodeId
      match ← ss.findStep nextNodeId ss.scanFuel nextBmIdx with
      | some bmIdx => .ok (.inl ⟨nextNodeId, bmIdx, j, stack⟩)
      | none => backtrack key stack

def advance (key : Str) (w : Walk) : Except Fault (Walk ⊕ Bool) := do
  let nodeId := w.bmIdx - w.nodeId + 1
  if w.i + 1 = key.length then
    if ← getBit ss.leaves nodeId then .ok (.inr true)
    else if w.stack = [] then .ok (.inr false)
    else
      let bmIdx ← selectIthOne ss.labelBitmap nodeId
      .ok (.inl { w with nodeId := nodeId, bmIdx := bmIdx })
  else
    let bmIdx ← ss.startAfter nodeId
    .ok (.inl { w with nodeId := nodeId, bmIdx := bmIdx, i := w.i + 1 })

def step (key : Str) (w : Walk) : Except Fault (Walk ⊕ Bool) := do
  let c ← revLowerAt key w.i
  if ← getBit ss.labelBitmap w.bmIdx then ss.backtrack key w.stack
  else
    let label ← ss.labelAt w.bmIdx w.nodeId
    if label = complexWildcardByte then .ok (.inr true)
    else if label = wildcardByte then
      .ok (.inl { w with bmIdx := w.bmIdx + 1, stack := ⟨w.bmIdx, w.i⟩ :: w.stack })
    else if label = c then ss.advance key w
    else .ok (.inl { w with bmIdx := w.bmIdx + 1 })

def walk (key : Str) : Nat → Walk → Except Fault Bool
  | 0, _ => .error .fuel
  | fuel + 1, w => do
    match ← ss.step key w with
    | .inl w => walk key fuel w
    | .inr result => .ok result

end DomainSet

/-- `Has`; a nil set holds nothing. -/
def has (ss : Option DomainSet) (fuel : Nat) (key : Str) : Except Fault Bool :=
  match ss with
  | none => .ok false
  | some ss =>
    if key = [] then getBit ss.leaves 0
    else ss.walk (normalize key) fuel ⟨0, 0, 0, []⟩

end Mihomo.Trie
