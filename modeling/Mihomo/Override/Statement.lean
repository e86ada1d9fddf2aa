import Mihomo.Override.Eval

/-!
# Statements of an override expression

A statement changes the mapping of a proxy in place: it replaces the mapping by the result of a filter,
updates the locations of a target, or deletes paths.
-/

namespace Mihomo.Override
open Go

inductive TargetStage where
  | path (p : Path)
  | condition (e : Expr)

structure Selection where
  value : Val
  path : Path

/-- A plain path, or the stages of `(… | select(…) | …)`. -/
inductive Target where
  | path (p : Path)
  | stages (stages : List TargetStage)

inductive Statement where
  | filter (e : Expr)
  | assign (target : Target) (op : AssignOp) (value : Expr)
  | delete (paths : List Path)

section
variable (P : Prims)

/-! ### Conditional targets -/

def expandOverrideTargetPath : Path → Selection → M (List Selection)
  | [], selection => pure [selection]
  | .field key :: path, ⟨value, before⟩ =>
    match value with
    | .scalar .null => expandOverrideTargetPath path ⟨.null, before ++ [.field key]⟩
    | .map ref => do
      expandOverrideTargetPath path ⟨(← readMap ref).get key, before ++ [.field key]⟩
    | _ => pure []
  | .index i :: path, ⟨value, before⟩ =>
    match value with
    | .scalar .null => expandOverrideTargetPath path ⟨.null, before ++ [.index i]⟩
    | .arr ref len => do
      let items ← readArray ref len
      let index := indexIn i len
      if index < 0 then return []
      expandOverrideTargetPath path ⟨items[index.toNat]?.getD .null, before ++ [.index index]⟩
    | _ => pure []
  | .wildcard :: path, ⟨value, before⟩ =>
    match value with
    | .arr ref len => do
      concatM (← readArray ref len).zipIdx fun item =>
        expandOverrideTargetPath path ⟨item.1, before ++ [.index item.2]⟩
    | .map ref => do
      let m ← readMap ref
      concatM (sortedKeys m) fun key =>
        expandOverrideTargetPath path ⟨m.get key, before ++ [.field key]⟩
    | _ => pure []

def resolve : List TargetStage → List Selection → M (List Selection)
  | [], selections => pure selections
  | .path p :: stages, selections => do
    resolve stages (← concatM selections (expandOverrideTargetPath p))
  | .condition e :: stages, selections => do
    let kept ← concatM selections fun selection => do
      let matched ← evalOverrideStream P e selection.value
      return if matched.any overrideTruthy then [selection] else []
    resolve stages kept

/-! ### Assignments and filters -/

def replaceOverrideMapping (root replacement : Nat) : M Unit := do
  match ← cloneOverrideValue P (.map replacement) with
  | .map cloned => writeCell root (.map (← readMap cloned))
  | _ => throw .dangling

def updateAt (root : Nat) (updater : Val → M Val) (p : Path) : M Unit := do
  match ← updateOverridePath P p updater (.map root) with
  | .map updated => if p = [] then replaceOverrideMapping P root updated
  | updated => fail ("root expression must produce a mapping, got " ++ overrideType updated)

def updateTarget (root : Nat) (updater : Val → M Val) : Target → M Unit
  | .path p => updateAt P root updater p
  | .stages stages => do
    (← resolve P stages [⟨.map root, []⟩]).forM fun selection =>
      updateAt P root updater selection.path

def applyAssign (root : Nat) (target : Target) (op : AssignOp) (value : Expr) : M Unit := do
  match op with
  | .assign =>
    let result ← evalOverrideSingle P value (.map root)
    if isOverrideNoMatch result then pure ()
    else updateTarget P root (fun _ => cloneOverrideValue P result) target
  | .update =>
    updateTarget P root (fun old => do
      let result ← evalOverrideSingle P value old
      return if isOverrideNoMatch result then old else result) target
  | op =>
    let result ← evalOverrideSingle P value (.map root)
    if isOverrideNoMatch result then pure ()
    else updateTarget P root (fun old => evaluateOverrideBinary P op.binary old result) target

def applyFilter (root : Nat) (e : Expr) : M Unit := do
  match ← evalOverrideSingle P e (.map root) with
  | .scalar .noMatch => fail "filter expression produced no result; a mapping is required"
  | .map result => replaceOverrideMapping P root result
  | value => fail ("filter expression must produce a mapping, got " ++ overrideType value)

/-! ### Deletions -/

def selectsKey (key : Str) : Path → Bool
  | .wildcard :: _ => true
  | .field k :: _ => k = key
  | _ => false

def selectsIndex (i len : Nat) : Path → Bool
  | .wildcard :: _ => true
  | .index j :: _ => indexIn j len = i
  | _ => false

/-- `deleteOverridePaths` for paths of at most this length. -/
def deleteAt : Nat → Val → List Path → M Val
  | 0, .arr ref len, _ => do newArray P (← readArray ref len)
  | 0, node, _ => pure node
  | depth + 1, .map ref, paths => do
    (P.range (← readMap ref).keys).forM fun key => do
      let selecting := paths.filter (selectsKey key)
      if selecting.any (·.length = 1) then deleteKey ref key
      else if selecting = [] then pure ()
      else
        let child := (← readMap ref).get key
        writeKey ref key (← deleteAt depth child (selecting.map List.tail))
    return .map ref
  | depth + 1, .arr ref len, paths => do
    let kept ← concatM (← readArray ref len).zipIdx fun item => do
      let selecting := paths.filter (selectsIndex item.2 len)
      if selecting.any (·.length = 1) then return []
      else if selecting = [] then return [item.1]
      else return [← deleteAt depth item.1 (selecting.map List.tail)]
    newArray P kept
  | _ + 1, .scalar s, _ => pure (.scalar s)

def deleteOverridePaths (node : Val) (paths : List Path) : M Val :=
  deleteAt P (paths.map List.length).sum node paths

def applyDelete (root : Nat) (paths : List Path) : M Unit := do
  match ← deleteOverridePaths P (.map root) paths with
  | .map _ => pure ()
  | _ => fail "root expression must produce a mapping"

/-! ### Whole expressions -/

def applyStatement (root : Nat) : Statement → M Unit
  | .filter e => applyFilter P root e
  | .assign target op value => applyAssign P root target op value
  | .delete paths => applyDelete P root paths

def apply (root : Nat) (statements : List Statement) : M Unit :=
  statements.forM (applyStatement P root)

end

end Mihomo.Override
