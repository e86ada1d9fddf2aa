import Mihomo.Go.Text

/-!
# The domain trie

Patterns are split into labels and stored under the reversed labels. A label `*` stands for any one
label and an empty first label for one or more; `+.d` is stored as `d` and `.d`. A node holds its only
child in a field of its own.
-/

namespace Mihomo.Trie
open Go

def wildcard : Str := ascii "*"
def dotWildcard : Str := []
def complexWildcard : Str := ascii "+"
def wildcardByte : UInt8 := 0x2A
def complexWildcardByte : UInt8 := 0x2B
def domainStepByte : UInt8 := 0x2E

inductive Reason where
  | empty
  | trailingDot
  | leadingSpace
  | trailingSpace
  | emptyLabel (label : Nat)
  | complexPartial (label : Nat)
  | complexNotFirst
  | complexAlone
  | wildcardPartial (label : Nat)
  deriving DecidableEq, Repr

def Reason.text : Reason → String
  | .empty => "domain is empty"
  | .trailingDot => "trailing dot is not allowed"
  | .leadingSpace => "leading whitespace is not allowed"
  | .trailingSpace => "trailing whitespace is not allowed"
  | .emptyLabel n => "label " ++ toString n ++ " is empty"
  | .complexPartial n => "\"+\" wildcard must occupy the entire label " ++ toString n
  | .complexNotFirst => "\"+\" wildcard is only allowed in the first label"
  | .complexAlone => "\"+\" wildcard must be followed by another label"
  | .wildcardPartial n => "\"*\" wildcard must occupy the entire label " ++ toString n

/-- `ErrInvalidDomain` with the domain as it was given. -/
structure InvalidDomain where
  domain : Str
  reason : Reason
  deriving DecidableEq, Repr

/-- The wildcard check of label `i` out of `n`, counted from zero. -/
def checkPart (n i : Nat) (part : Str) : Option Reason :=
  if complexWildcardByte ∈ part ∧ part ≠ complexWildcard then some (.complexPartial (i + 1))
  else if complexWildcardByte ∈ part ∧ i ≠ 0 then some .complexNotFirst
  else if complexWildcardByte ∈ part ∧ n = 1 then some .complexAlone
  else if wildcardByte ∈ part ∧ part ≠ wildcard then some (.wildcardPartial (i + 1))
  else none

def checkEmpty : List Str → Option Reason
  | [part] => if part = [] then some .empty else none
  | parts => (parts.tail.findIdx? fun part => part = []).map fun i => .emptyLabel (i + 2)

def checkParts (parts : List Str) : Option Reason :=
  (checkEmpty parts).or
    (parts.zipIdx.findSome? fun part => checkPart parts.length part.2 part.1)

def validAndSplitDomain (domain : Str) : Except InvalidDomain (List Str) :=
  if domain = [] then .error ⟨domain, .empty⟩
  else if domain.getLast? = some domainStepByte then .error ⟨domain, .trailingDot⟩
  else if isSpace (decodeRune domain).1 then .error ⟨domain, .leadingSpace⟩
  else if isSpace (decodeLastRune domain) then .error ⟨domain, .trailingSpace⟩
  else
    let parts := (toLower domain).splitOn domainStepByte
    match checkParts parts with
    | some reason => .error ⟨domain, reason⟩
    | none => .ok parts

def joinDomain (items : List Str) : Str := [domainStepByte].intercalate items

mutual

/-- A node; `data` is nil until `inited`. -/
inductive Node (T : Type) where
  | mk (data : Option T) (kids : Kids T)

inductive Kids (T : Type) where
  | none
  | one (childStr : Str) (childNode : Node T)
  | map (childMap : Entries T)

inductive Entries (T : Type) where
  | nil
  | cons (key : Str) (child : Node T) (rest : Entries T)

end

variable {T : Type}

def Node.new : Node T := .mk none .none

def Node.data : Node T → Option T
  | .mk data _ => data

def Node.kids : Node T → Kids T
  | .mk _ kids => kids

def Node.isEmpty (n : Node T) : Bool := n.data.isNone

def Entries.get (s : Str) : Entries T → Option (Node T)
  | .nil => none
  | .cons key child rest => if key = s then some child else rest.get s

def Entries.set (s : Str) (n : Node T) : Entries T → Entries T
  | .nil => .cons s n .nil
  | .cons key child rest => if key = s then .cons key n rest else .cons key child (rest.set s n)

def Node.getChild (n : Node T) (s : Str) : Option (Node T) :=
  match n.kids with
  | .none => none
  | .one childStr childNode => if childStr = s then some childNode else none
  | .map childMap => childMap.get s

def Node.hasNoChild (n : Node T) : Bool :=
  match n.kids with
  | .none => true
  | _ => false

/-- `getOrNewChild` followed by an update of the child in place. -/
def Node.setChild (n : Node T) (s : Str) (child : Node T) : Node T :=
  .mk n.data <|
    match n.kids with
    | .none => .one s child
    | .one childStr childNode =>
      if childStr = s then .one s child else .map (.cons childStr childNode (.cons s child .nil))
    | .map childMap => .map (childMap.set s child)

def Node.setData (n : Node T) (data : T) : Node T := .mk (some data) n.kids

/-- `insert`, with the labels in the order of the descent. -/
def Node.insert (data : T) : List Str → Node T → Node T
  | [], n => n.setData data
  | part :: parts, n => n.setChild part (((n.getChild part).getD .new).insert data parts)

/-- `search`, with the labels in the order of the descent. -/
def Node.search : List Str → Node T → Option (Node T)
  | [], n => some n
  | part :: parts, n =>
    let below (s : Str) := ((n.getChild s).bind (Node.search parts)).filter fun m => !m.isEmpty
    (below part).or ((below wildcard).or (n.getChild dotWildcard))

structure DomainTrie (T : Type) where
  root : Node T

namespace DomainTrie

def new : DomainTrie T := ⟨.new⟩

def insertParts (t : DomainTrie T) (parts : List Str) (data : T) : DomainTrie T :=
  ⟨t.root.insert data parts.reverse⟩

def insert (t : DomainTrie T) (domain : Str) (data : T) : Except InvalidDomain (DomainTrie T) :=
  match validAndSplitDomain domain with
  | .error e => .error e
  | .ok parts =>
    if parts.head? = some complexWildcard then
      .ok ((t.insertParts parts.tail data).insertParts (dotWildcard :: parts.tail) data)
    else .ok (t.insertParts parts data)

def search (t : DomainTrie T) (domain : Str) : Option (Node T) :=
  if t.root.hasNoChild then none
  else
    match validAndSplitDomain domain with
    | .error _ => none
    | .ok parts =>
      if parts.head? = some [] then none
      else (t.root.search parts.reverse).filter fun n => !n.isEmpty

end DomainTrie

mutual

/-- `recursion` with a callback that never stops: the patterns below a node that stands
for `items`. -/
def Node.walk (items : List Str) : Node T → List (Str × T)
  | .mk _ kids => kids.walk items

def Kids.walk (items : List Str) : Kids T → List (Str × T)
  | .none => []
  | .one s n =>
    (n.data.toList.map fun d => (joinDomain (s :: items), d)) ++ n.walk (s :: items)
  | .map m => m.walk items

def Entries.walk (items : List Str) : Entries T → List (Str × T)
  | .nil => []
  | .cons s n rest =>
    ((n.data.toList.map fun d => (joinDomain (s :: items), d)) ++ n.walk (s :: items)) ++
      rest.walk items

end

def Entries.toList : Entries T → List (Str × Node T)
  | .nil => []
  | .cons s n rest => (s, n) :: rest.toList

def Node.getChildren (n : Node T) : List (Str × Node T) :=
  match n.kids with
  | .none => []
  | .one s child => [(s, child)]
  | .map m => m.toList

/-- `Foreach` with a callback that never stops, for one order of the child maps. -/
def DomainTrie.foreach (t : DomainTrie T) : List (Str × T) :=
  t.root.getChildren.flatMap fun c =>
    c.2.walk [c.1] ++ c.2.data.toList.map fun d => (joinDomain [c.1], d)

end Mihomo.Trie
