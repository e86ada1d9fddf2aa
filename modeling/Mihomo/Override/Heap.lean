import Mihomo.Go.Text
import Mathlib.Data.List.AList

/-!
# Values of override expressions in memory

An `any` value of the evaluator is a scalar, a slice or a map. Slices and maps are references into a
heap: a slice is the number of its backing array and a length, so that an append may or may not move to
a new array. What a computation wrote before it failed stays written.

`Prims` holds what the evaluator takes from the standard library, from the YAML encoder and from the
runtime.
-/

namespace Mihomo.Override
open Go

inductive Num where
  | int (n : Int)
  | float (bits : UInt64)
  deriving DecidableEq, Repr

inductive Scalar where
  | null
  | bool (b : Bool)
  | num (n : Num)
  | str (s : Str)
  /-- `overrideNoMatch`, which is no value of the configuration. -/
  | noMatch
  deriving DecidableEq, Repr

inductive Val where
  | scalar (s : Scalar)
  | arr (ref len : Nat)
  | map (ref : Nat)
  deriving DecidableEq, Repr

namespace Val

def null : Val := .scalar .null
def bool (b : Bool) : Val := .scalar (.bool b)
def int (n : Int) : Val := .scalar (.num (.int n))
def str (s : Str) : Val := .scalar (.str s)
def noMatch : Val := .scalar .noMatch

def ref : Val → Option Nat
  | scalar _ => none
  | arr ref _ => some ref
  | map ref => some ref

end Val

abbrev Mapping := AList fun _ : Str => Val

def Mapping.values (m : Mapping) : List Val := m.entries.map Sigma.snd

/-- `mapping[key]`, which is nil for a missing key. -/
def Mapping.get (m : Mapping) (key : Str) : Val := (m.lookup key).getD .null

inductive Cell where
  /-- A backing array with its whole capacity. -/
  | arr (items : List Val)
  | map (m : Mapping)

def Cell.stored : Cell → List Val
  | arr items => items
  | map m => m.values

abbrev Heap := List Cell

inductive Tree where
  | leaf (s : Scalar)
  | seq (items : List Tree)
  | mapping (entries : List (Str × Tree))

inductive Error where
  | message (text : String)
  /-- A reference to a cell of another kind, which the types of the language exclude. -/
  | dangling
  /-- A value that contains itself, on which the recursion of the source does not end. -/
  | cyclic
  deriving DecidableEq, Repr

structure Prims where
  /-- The order in which `range` visits the keys of a map. -/
  range : List Str → List Str
  range_perm : ∀ keys, (range keys).Perm keys
  /-- The capacity that a new slice has beyond its length, by the number of its array. -/
  spare : Nat → Nat
  /-- `evaluateOverrideNumbers`, by the operator. -/
  numbers : String → Num → Num → Except String Num
  compareNumbers : Num → Num → Ordering
  /-- Both are integers or both are floats, and they are equal. -/
  sameNumber : Num → Num → Bool
  /-- The number as a count, if it is a non-negative integer. -/
  count : Num → Option Nat
  toInt : Num → Int
  sprint : Num → Str
  parseNumber : Str → Option Num
  deepEqual : Tree → Tree → Bool
  /-- `yaml.Marshal` without the last newline. -/
  marshal : Tree → Except String Str
  /-- `regexp.Compile` and `MatchString`. -/
  matchString : Str → Str → Except String Bool
  /-- `regexp.Compile` and `ReplaceAllString`. -/
  replaceAll : Str → Str → Str → Except String Str
  split : Str → Str → List Str
  contains : Str → Str → Bool
  toUpper : Str → Str
  toLower : Str → Str
  trimSpace : Str → Str
  /-- `sort.SliceStable` with `compareOverrideSortValues`; none when a comparison failed. -/
  sortStable : List Val → Option (List Val)
  sortStable_perm : ∀ {items sorted}, sortStable items = some sorted → sorted.Perm items

/-! ### Reading and writing -/

abbrev M := EStateM Error Heap

def fail {α : Type} (text : String) : M α := throw (.message text)

def liftExcept {α : Type} : Except String α → M α
  | .ok a => pure a
  | .error text => fail text

def readCell (ref : Nat) : M Cell := fun h =>
  match h[ref]? with
  | some c => .ok c h
  | none => .error .dangling h

def readArray (ref len : Nat) : M (List Val) := do
  match ← readCell ref with
  | .arr items => return items.take len
  | .map _ => throw .dangling

def readMap (ref : Nat) : M Mapping := do
  match ← readCell ref with
  | .map m => return m
  | .arr _ => throw .dangling

def alloc (c : Cell) : M Nat := fun h => .ok h.length (h ++ [c])

def writeCell (ref : Nat) (c : Cell) : M Unit := fun h => .ok () (h.set ref c)

def writeItem (ref i : Nat) (v : Val) : M Unit := do
  match ← readCell ref with
  | .arr items => writeCell ref (.arr (items.set i v))
  | .map _ => throw .dangling

def writeKey (ref : Nat) (key : Str) (v : Val) : M Unit := do
  writeCell ref (.map ((← readMap ref).insert key v))

def deleteKey (ref : Nat) (key : Str) : M Unit := do
  writeCell ref (.map ((← readMap ref).erase key))

def newMap (m : Mapping) : M Val := return .map (← alloc (.map m))

def concatM {α β : Type} : List α → (α → M (List β)) → M (List β)
  | [], _ => pure []
  | a :: as, f => do
    let vs ← f a
    let ws ← concatM as f
    return vs ++ ws

section
variable (P : Prims)

def newArray (items : List Val) : M Val := fun h =>
  .ok (.arr h.length items.length) (h ++ [.arr (items ++ List.replicate (P.spare h.length) .null)])

/-- `append(array, nil)`: in place while there is spare capacity. -/
def appendNil (ref len : Nat) : M Val := do
  match ← readCell ref with
  | .arr items =>
    if len < items.length then
      writeCell ref (.arr (items.set len .null))
      return .arr ref (len + 1)
    else newArray P (items.take len ++ [.null])
  | .map _ => throw .dangling

/-! ### Functions on values -/

def isOverrideNoMatch (v : Val) : Bool := v == .noMatch

def overrideTruthy : Val → Bool
  | .scalar .null => false
  | .scalar (.bool b) => b
  | _ => true

def isOverrideScalar : Val → Bool
  | .scalar .noMatch => false
  | .scalar _ => true
  | _ => false

def overrideType : Val → String
  | .scalar .null => "!!null"
  | .scalar (.bool _) => "!!bool"
  | .scalar (.num (.int _)) => "!!int"
  | .scalar (.num (.float _)) => "!!float"
  | .scalar (.str _) => "!!str"
  | .scalar .noMatch => "provider.overrideNoMatch"
  | .arr .. => "!!seq"
  | .map _ => "!!map"

def sprintScalar : Scalar → Str
  | .null => ascii "<nil>"
  | .bool true => ascii "true"
  | .bool false => ascii "false"
  | .num n => P.sprint n
  | .str s => s
  | .noMatch => ascii "{}"

def sortedKeys (m : Mapping) : List Str := m.keys.mergeSort fun a b => decide (a ≤ b)

/-- `cloneOverrideValue`, to a depth. -/
def cloneAt : Nat → Val → M Val
  | _, .scalar s => pure (.scalar s)
  | 0, _ => throw .cyclic
  | depth + 1, .arr ref len => do
    let items ← readArray ref len
    newArray P (← items.mapM' (cloneAt depth))
  | depth + 1, .map ref => do
    let m ← readMap ref
    let cloned ← (P.range m.keys).foldlM (fun (cloned : Mapping) key => do
      return cloned.insert key (← cloneAt depth (m.get key))) ∅
    newMap cloned

def depthBound : M Nat := fun h => .ok (h.length + 1) h

def cloneOverrideValue (v : Val) : M Val := do cloneAt P (← depthBound) v

def treeAt : Nat → Val → M Tree
  | _, .scalar s => pure (.leaf s)
  | 0, _ => throw .cyclic
  | depth + 1, .arr ref len => do
    let items ← readArray ref len
    return .seq (← items.mapM' (treeAt depth))
  | depth + 1, .map ref => do
    let m ← readMap ref
    let entries ← (sortedKeys m).mapM' fun key => do return (key, ← treeAt depth (m.get key))
    return .mapping entries

def treeOf (v : Val) : M Tree := do treeAt (← depthBound) v

end

end Mihomo.Override
