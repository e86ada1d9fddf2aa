import Mihomo.Override.Heap

/-!
# Evaluation of override expressions

`evalInputs` is `evalOverrideStreamInputs`: it yields the results of an expression for a stream of
inputs, of which `evalOverrideStream` is the case of one input. The literal parts of an interpolated
string are literal expressions here.
-/

namespace Mihomo.Override
open Go

/-! ### Syntax -/

inductive Segment where
  | field (key : Str)
  | index (i : Int)
  | wildcard
  deriving DecidableEq, Repr

abbrev Path := List Segment

/-- The operators `=`, `|=`, `+=`, `-=` and `*=`. -/
inductive AssignOp where
  | assign | update | add | sub | mul
  deriving DecidableEq, Repr

inductive BinOp where
  | and | or | alternative | eq | ne | lt | le | gt | ge | add | sub | mul | div | mod
  deriving DecidableEq, Repr

inductive Func where
  | length | type | keys | has | contains | select | sub | test | split | join | upcase | downcase
  | trim | tostring | tonumber | not | reverse | sort | unique | flatten | any | all
  deriving DecidableEq, Repr

inductive StreamFunc where
  | map | mapValues | filter | toEntries | fromEntries | withEntries | anyC | allC
  deriving DecidableEq, Repr

inductive Expr where
  | literal (v : Val)
  | string (parts : List Expr)
  | path (p : Path)
  | array (values : List Expr)
  | mapping (entries : List (Str × Expr))
  | update (p : Path) (op : AssignOp) (value : Expr)
  | binary (op : BinOp) (left right : Expr)
  | call (f : Func) (args : List Expr)
  | stream (f : StreamFunc) (args : List Expr)
  | pipeline (stages : List Expr)
  | union (values : List Expr)

section
variable (P : Prims)

/-! ### Paths -/

def indexIn (i : Int) (len : Nat) : Int := if i < 0 then i + len else i

def lookupOverridePathStream : Path → Val → M (List Val)
  | [], v => pure [v]
  | .field key :: path, v =>
    match v with
    | .map ref => do lookupOverridePathStream path ((← readMap ref).get key)
    | _ => pure [.null]
  | .index i :: path, v =>
    match v with
    | .arr ref len => do
      let items ← readArray ref len
      let index := indexIn i len
      if index < 0 then return [.null]
      match items[index.toNat]? with
      | some item => lookupOverridePathStream path item
      | none => return [.null]
    | _ => pure [.null]
  | .wildcard :: path, v =>
    match v with
    | .arr ref len => do concatM (← readArray ref len) (lookupOverridePathStream path)
    | .map ref => do
      let m ← readMap ref
      concatM ((sortedKeys m).map m.get) (lookupOverridePathStream path)
    | _ => pure []

/-- `append` of nils until the index is in range. -/
def grow : Nat → Nat → Nat → M Val
  | 0, ref, len => pure (.arr ref len)
  | missing + 1, ref, len => do
    match ← appendNil P ref len with
    | .arr ref len => grow missing ref len
    | _ => throw .dangling

/-- `if node == nil { node = map[string]any{} }`. -/
def nilAsMap (node : Val) : M Val := if node = .null then newMap ∅ else pure node

def nilAsArray (node : Val) : M Val := if node = .null then newArray P [] else pure node

def updateOverridePath : Path → (Val → M Val) → Val → M Val
  | [], updater, node => updater node
  | .field key :: path, updater, node => do
    match ← nilAsMap node with
    | .map ref =>
      let value ← updateOverridePath path updater ((← readMap ref).get key)
      writeKey ref key value
      return .map ref
    | node => return node
  | .index i :: path, updater, node => do
    match ← nilAsArray P node with
    | .arr ref len =>
      let index := indexIn i len
      if index < 0 then fail "array index is out of range"
      else
        match ← grow P (index.toNat + 1 - len) ref len with
        | .arr ref len =>
          match (← readArray ref len)[index.toNat]? with
          | some item =>
            writeItem ref index.toNat (← updateOverridePath path updater item)
            return .arr ref len
          | none => throw .dangling
        | _ => throw .dangling
    | node => return node
  | .wildcard :: path, updater, node =>
    match node with
    | .arr ref len => do
      -- The items are read one by one, as the loop of the source does.
      (List.range len).forM fun i => do
        match (← readArray ref len)[i]? with
        | some item => writeItem ref i (← updateOverridePath path updater item)
        | none => throw .dangling
      return .arr ref len
    | .map ref => do
      (P.range (← readMap ref).keys).forM fun key => do
        let item := (← readMap ref).get key
        writeKey ref key (← updateOverridePath path updater item)
      return .map ref
    | _ => pure node

/-! ### Operators -/

/-- `overrideEqual` on whole values. -/
def overrideEqual : Tree → Tree → Bool
  | .leaf (.num a), .leaf (.num b) => P.sameNumber a b
  | .leaf (.num _), _ => false
  | left, right => P.deepEqual left right

mutual

def overrideContains : Tree → Tree → Bool
  | .leaf (.str s), .leaf (.str t) => P.contains s t
  | .seq items, .seq wanted => wanted.all fun w => containsItem items w
  | .seq items, wanted => containsItem items wanted
  | .mapping entries, .mapping wanted => wanted.all fun w => containsEntry entries w.1 w.2
  | _, _ => false

def containsItem : List Tree → Tree → Bool
  | [], _ => false
  | item :: items, wanted =>
    overrideEqual P item wanted || overrideContains item wanted || containsItem items wanted

def containsEntry : List (Str × Tree) → Str → Tree → Bool
  | [], _, _ => false
  | (key, item) :: entries, wantedKey, wanted =>
    if key = wantedKey then overrideEqual P item wanted || overrideContains item wanted
    else containsEntry entries wantedKey wanted

end

def overrideYQEqual : Val → Val → Bool
  | .scalar .noMatch, _ | _, .scalar .noMatch => false
  | .scalar .null, .scalar right => right == .null
  | .scalar _, .scalar .null => false
  | .scalar (.num a), .scalar (.num b) => P.sameNumber a b
  | .scalar left, .scalar right => sprintScalar P left == sprintScalar P right
  | _, _ => false

def compareOverrideValues : Val → Val → Except String Ordering
  | .scalar (.num a), .scalar (.num b) => .ok (P.compareNumbers a b)
  | .scalar (.num _), right => .error ("cannot compare number and " ++ overrideType right)
  | .scalar (.str a), .scalar (.str b) => .ok (if a < b then .lt else if a = b then .eq else .gt)
  | left, right => .error ("cannot compare " ++ overrideType left ++ " and " ++ overrideType right)

/-- `<`, `<=`, `>` and `>=`, as the test that an ordering has to pass. -/
def evaluateOverrideOrder (orEqual : Bool) (passes : Ordering → Bool) (left right : Val) :
    Except String Val :=
  if !isOverrideScalar left || !isOverrideScalar right then
    .error ("cannot compare " ++ overrideType left ++ " and " ++ overrideType right)
  else if left = .null ∨ right = .null then
    .ok (.bool (left = .null && right = .null && orEqual))
  else (compareOverrideValues P left right).map fun order => .bool (passes order)

def evaluateOverrideNumbers (operator : String) : Val → Val → Except String Val
  | .scalar (.num a), .scalar (.num b) => (P.numbers operator a b).map fun n => .scalar (.num n)
  | left, right => .error
    ("operator " ++ operator ++ " cannot be used with " ++ overrideType left ++ " and " ++
      overrideType right)

/-- `result[key] = cloneOverrideValue(value)` for the entries of a map. -/
def cloneInto (ref : Nat) (m : Mapping) : M Unit :=
  (P.range m.keys).forM fun key => do writeKey ref key (← cloneOverrideValue P (m.get key))

def evaluateOverrideAdd : Val → Val → M Val
  | .scalar .null, right => cloneOverrideValue P right
  | .scalar (.str s), right =>
    match right with
    | .scalar .null => pure (.str s)
    | .scalar .noMatch => fail ("cannot add string and " ++ overrideType right)
    | .scalar t => pure (.str (s ++ sprintScalar P t))
    | _ => fail ("cannot add string and " ++ overrideType right)
  | .arr ref len, right => do
    let items ← readArray ref len
    match right with
    | .scalar .null => newArray P items
    | .arr .. =>
      match ← cloneOverrideValue P right with
      | .arr ref len => newArray P (items ++ (← readArray ref len))
      | _ => throw .dangling
    | _ => newArray P (items ++ [← cloneOverrideValue P right])
  | .map ref, right =>
    match right with
    | .map other => do
      let result ← cloneOverrideValue P (.map ref)
      match result with
      | .map ref => cloneInto P ref (← readMap other)
      | _ => throw .dangling
      return result
    | _ => fail ("cannot add mapping and " ++ overrideType right)
  | .scalar s, right =>
    match right with
    | .scalar (.str t) =>
      if isOverrideScalar (.scalar s) then pure (.str (sprintScalar P s ++ t))
      else liftExcept (evaluateOverrideNumbers P "+" (.scalar s) right)
    | _ => liftExcept (evaluateOverrideNumbers P "+" (.scalar s) right)

def evaluateOverrideSubtract : Val → Val → M Val
  | .scalar .null, right => cloneOverrideValue P right
  | .arr ref len, right =>
    match right with
    | .arr other otherLen => do
      let candidates ← (← readArray other otherLen).mapM' treeOf
      let kept ← concatM (← readArray ref len) fun item => do
        let tree ← treeOf item
        return if candidates.any fun candidate => overrideEqual P tree candidate then [] else [item]
      newArray P kept
    | _ => fail (overrideType right ++ " cannot be subtracted from !!seq")
  | left, right => liftExcept (evaluateOverrideNumbers P "-" left right)

/-- `mergeOverrideMaps`, to a depth. -/
def mergeAt : Nat → Nat → Nat → M Val
  | 0, _, _ => throw .cyclic
  | depth + 1, left, right => do
    let result ← cloneOverrideValue P (.map left)
    match result with
    | .map ref =>
      let m ← readMap right
      (P.range m.keys).forM fun key => do
        match (← readMap ref).get key, m.get key with
        | .map left, .map right => writeKey ref key (← mergeAt depth left right)
        | _, value => writeKey ref key (← cloneOverrideValue P value)
    | _ => throw .dangling
    return result

def mergeOverrideMaps (left right : Nat) : M Val := do mergeAt P (← depthBound) left right

/-- `strings.Repeat`, with the limit on the count. -/
def repeatString (s : Str) (n : Num) : M Val :=
  match P.count n with
  | none => fail "string multiplier must be a non-negative integer"
  | some count =>
    if count > 10000000 then fail "string multiplier cannot exceed 10 million"
    else pure (.str (List.replicate count s).flatten)

def evaluateOverrideMultiply : Val → Val → M Val
  | left, .scalar .null => cloneOverrideValue P left
  | .scalar .null, .arr ref len => cloneOverrideValue P (.arr ref len)
  | .scalar .null, .map ref => cloneOverrideValue P (.map ref)
  | .map left, .map right => mergeOverrideMaps P left right
  | .map _, right => fail ("cannot multiply mapping and " ++ overrideType right)
  | .arr .., .arr ref len => cloneOverrideValue P (.arr ref len)
  | .scalar (.str s), .scalar (.num n) => repeatString P s n
  | .scalar (.str _), _ => fail "string multiplier must be a non-negative integer"
  | .scalar (.num n), .scalar (.str s) => repeatString P s n
  | _, .scalar (.str _) => fail "string multiplier must be a non-negative integer"
  | left, right => liftExcept (evaluateOverrideNumbers P "*" left right)

def evaluateOverrideDivide : Val → Val → M Val
  | .scalar (.str s), .scalar (.str separator) =>
    if s = [] then newArray P [] else newArray P ((P.split s separator).map .str)
  | .scalar (.str _), right =>
    fail ("operator / cannot be used with !!str and " ++ overrideType right)
  | left, right => liftExcept (evaluateOverrideNumbers P "/" left right)

def evaluateOverrideBinary : BinOp → Val → Val → M Val
  | .and, left, right => pure (.bool (overrideTruthy left && overrideTruthy right))
  | .or, left, right => pure (.bool (overrideTruthy left || overrideTruthy right))
  | .alternative, left, right => pure (if overrideTruthy left then left else right)
  | .eq, left, right => pure (.bool (overrideYQEqual P left right))
  | .ne, left, right => pure (.bool (!overrideYQEqual P left right))
  | .lt, left, right => liftExcept (evaluateOverrideOrder P false (· == .lt) left right)
  | .le, left, right => liftExcept (evaluateOverrideOrder P true (· != .gt) left right)
  | .gt, left, right => liftExcept (evaluateOverrideOrder P false (· == .gt) left right)
  | .ge, left, right => liftExcept (evaluateOverrideOrder P true (· != .lt) left right)
  | .add, left, right => evaluateOverrideAdd P left right
  | .sub, left, right => evaluateOverrideSubtract P left right
  | .mul, left, right => evaluateOverrideMultiply P left right
  | .div, left, right => evaluateOverrideDivide P left right
  | .mod, left, right => liftExcept (evaluateOverrideNumbers P "%" left right)

/-! ### Functions of the current value -/

def checkCount (name : String) (want : List Nat) (args : List Val) : M Unit :=
  if args.length ∈ want then pure () else fail (name ++ " expects another number of arguments")

def stringArg (name : String) (args : List Val) (index : Nat) : M Str :=
  match args[index]? with
  | some (.scalar (.str s)) => pure s
  | _ => fail (name ++ " argument must be a string")

def arrayInput (name : String) : Val → M (List Val)
  | .arr ref len => readArray ref len
  | input => fail (name ++ " only supports arrays, got " ++ overrideType input)

def stringInput (name : String) : Val → M Str
  | .scalar (.str s) => pure s
  | _ => fail (name ++ " requires string input")

/-- `flattenOverrideArray`, to a depth of the values; `limit` is its own depth argument. -/
def flattenAt : Nat → List Val → Int → M (List Val)
  | 0, _, _ => throw .cyclic
  | depth + 1, values, limit => concatM values fun value =>
    match value with
    | .arr ref len =>
      if limit = 0 then do return [← cloneOverrideValue P value]
      else do flattenAt depth (← readArray ref len) (if limit > 0 then limit - 1 else limit)
    | _ => do return [← cloneOverrideValue P value]

def overrideUniqueKey : Val → M Str
  | .scalar .null => pure (ascii "null")
  | .scalar .noMatch => do liftExcept (P.marshal (.leaf .noMatch))
  | .scalar s => pure (sprintScalar P s)
  | v => do liftExcept (P.marshal (← treeOf v))

def uniqueItems : List Val → List Str → M (List Val)
  | [], _ => pure []
  | v :: vs, seen => do
    let key ← overrideUniqueKey P v
    if key ∈ seen then uniqueItems vs seen
    else do
      let cloned ← cloneOverrideValue P v
      return cloned :: (← uniqueItems vs (key :: seen))

def rearrange (input : Val) (order : List Val → M (List Val)) : M Val := do
  let result ← cloneOverrideValue P input
  match result with
  | .arr ref len =>
    match ← readCell ref with
    | .arr items => writeCell ref (.arr ((← order (items.take len)) ++ items.drop len))
    | .map _ => throw .dangling
  | _ => throw .dangling
  return result

def joinPart : Val → Str
  | .scalar .null | .arr .. | .map _ => []
  | .scalar s => sprintScalar P s

def overrideLength : Val → M Val
  | .scalar .null => pure (.int 0)
  | .scalar (.str s) => pure (.int s.length)
  | .arr _ len => pure (.int len)
  | .map ref => do return .int (← readMap ref).keys.length
  | .scalar .noMatch => fail "length cannot be used with provider.overrideNoMatch"
  | .scalar s => pure (.int (sprintScalar P s).length)

def overrideKeys : Val → M Val
  | .map ref => do newArray P ((sortedKeys (← readMap ref)).map .str)
  | .arr ref len => do newArray P ((List.range (← readArray ref len).length).map fun i => .int i)
  | input => fail ("keys cannot be used with " ++ overrideType input)

def overrideHas (input : Val) (args : List Val) : M Val :=
  match input with
  | .map ref => do
    let key ← stringArg "has" args 0
    return .bool ((← readMap ref).lookup key).isSome
  | .arr _ len =>
    match args.head? with
    | some (.scalar (.num (.int n))) =>
      let index := indexIn (P.toInt (.int n)) len
      pure (.bool (decide (0 ≤ index ∧ index < len)))
    | _ => pure (.bool false)
  | _ => pure (.bool false)

def overrideContainsCall (input : Val) (args : List Val) : M Val := do
  let wanted := args.head?.getD .null
  match input with
  | .scalar (.str s) => return .bool (P.contains s (← stringArg "contains" args 0))
  | .arr .. =>
    match wanted with
    | .arr .. => return .bool (overrideContains P (← treeOf input) (← treeOf wanted))
    | _ => fail (overrideType wanted ++ " cannot check contained in !!seq")
  | .map _ =>
    match wanted with
    | .map _ => return .bool (overrideContains P (← treeOf input) (← treeOf wanted))
    | _ => fail (overrideType wanted ++ " cannot check contained in !!map")
  | _ =>
    if !isOverrideScalar wanted then
      fail (overrideType wanted ++ " cannot check contained in " ++ overrideType input)
    else if overrideType input ≠ overrideType wanted then return .bool false
    else return .bool (overrideEqual P (← treeOf input) (← treeOf wanted))

/-- `overrideFunctionExpr.eval` with the values of its arguments. -/
def callFunction (f : Func) (input : Val) (args : List Val) : M Val := do
  match f with
  | .select =>
    checkCount "select" [1] args
    let condition := args.head?.getD .null
    return if isOverrideNoMatch condition || !overrideTruthy condition then .noMatch else input
  | .not =>
    checkCount "not" [0] args
    return .bool (!overrideTruthy input)
  | .reverse =>
    checkCount "reverse" [0] args
    let _ ← arrayInput "reverse" input
    rearrange P input fun items => pure items.reverse
  | .sort =>
    checkCount "sort" [0] args
    let _ ← arrayInput "sort" input
    rearrange P input fun items =>
      match P.sortStable items with
      | some sorted => pure sorted
      | none => fail "sort only supports scalar array values in override-expr"
  | .unique =>
    checkCount "unique" [0] args
    newArray P (← uniqueItems P (← arrayInput "unique" input) [])
  | .flatten =>
    checkCount "flatten" [0, 1] args
    let items ← arrayInput "flatten" input
    match args.head? with
    | none => newArray P (← flattenAt P (← depthBound) items (-1))
    | some (.scalar (.num n)) =>
      match P.count n with
      | some limit => newArray P (← flattenAt P (← depthBound) items limit)
      | none => fail "flatten depth must be a non-negative integer"
    | some _ => fail "flatten depth must be a non-negative integer"
  | .any =>
    checkCount "any" [0] args
    return .bool ((← arrayInput "any" input).any overrideTruthy)
  | .all =>
    checkCount "all" [0] args
    return .bool ((← arrayInput "all" input).all overrideTruthy)
  | .length =>
    checkCount "length" [0] args
    overrideLength P input
  | .type =>
    checkCount "type" [0] args
    return .str (ascii (overrideType input))
  | .keys =>
    checkCount "keys" [0] args
    overrideKeys P input
  | .has =>
    checkCount "has" [1] args
    overrideHas P input args
  | .contains =>
    checkCount "contains" [1] args
    overrideContainsCall P input args
  | .test =>
    checkCount "test" [1, 2] args
    if args.length = 2 then
      let options ← stringArg "test" args 1
      if options.any (· != 'g'.toNat.toUInt8) then fail "unsupported test options"
    let value ← stringInput "test" input
    return .bool (← liftExcept (P.matchString (← stringArg "test" args 0) value))
  | .sub =>
    checkCount "sub" [2] args
    let value ← stringInput "sub" input
    let pattern ← stringArg "sub" args 0
    return .str (← liftExcept (P.replaceAll pattern value (← stringArg "sub" args 1)))
  | .split =>
    checkCount "split" [1] args
    if input = .null then return .noMatch
    let value ← stringInput "split" input
    newArray P ((P.split value (← stringArg "split" args 0)).map .str)
  | .join =>
    checkCount "join" [1] args
    let items ← arrayInput "join" input
    return .str ((← stringArg "join" args 0).intercalate (items.map (joinPart P)))
  | .upcase =>
    checkCount "upcase" [0] args
    return .str (P.toUpper (← stringInput "upcase" input))
  | .downcase =>
    checkCount "downcase" [0] args
    return .str (P.toLower (← stringInput "downcase" input))
  | .trim =>
    checkCount "trim" [0] args
    return .str (P.trimSpace (← stringInput "trim" input))
  | .tostring =>
    checkCount "tostring" [0] args
    match input with
    | .scalar (.str s) => return .str s
    | _ => return .str (← liftExcept (P.marshal (← treeOf input)))
  | .tonumber =>
    checkCount "tonumber" [0] args
    match input with
    | .scalar (.num n) => return .scalar (.num n)
    | .scalar (.str s) =>
      match P.parseNumber s with
      | some n => return .scalar (.num n)
      | none => fail "cannot convert to number"
    | _ => fail "tonumber requires string or number input"

/-! ### Functions of streams -/

def overrideCollectionValues : Val → M (List Val)
  | .arr ref len => readArray ref len
  | .map ref => do
    let m ← readMap ref
    return (sortedKeys m).map m.get
  | input => fail ("expected array or mapping, got " ++ overrideType input)

def newEntry (key value : Val) : M Val :=
  newMap ((AList.insert (ascii "value") value ∅).insert (ascii "key") key)

/-- `toOverrideEntries`; none stands for the nil slice. -/
def toOverrideEntries : Val → M (Option (List Val))
  | .scalar .null => pure none
  | .arr ref len => do
    let items ← readArray ref len
    return some (← items.zipIdx.mapM' fun item => do
      newEntry (.int item.2) (← cloneOverrideValue P item.1))
  | .map ref => do
    let m ← readMap ref
    return some (← (sortedKeys m).mapM' fun key => do
      newEntry (.str key) (← cloneOverrideValue P (m.get key)))
  | input => fail (overrideType input ++ " has no keys")

def readEntry (item : Val) : M (Str × Val) := do
  match item with
  | .map ref =>
    let entry ← readMap ref
    match entry.lookup (ascii "key"), entry.lookup (ascii "value") with
    | some (.scalar (.str key)), some value => return (key, value)
    | none, _ => fail "entry has no key"
    | some _, none => fail "entry has no value"
    | some _, some _ => fail "entry key must be a string in override-expr"
  | _ => fail "entry must be a mapping"

def fromOverrideEntries (entries : List Val) : M Val := do
  let m ← entries.foldlM (fun (m : Mapping) item => do
    let (key, value) ← readEntry item
    return m.insert key (← cloneOverrideValue P value)) ∅
  newMap m

/-- `overrideStreamFunctionExpr.evalAll`. `run` evaluates the arguments one after the other, each for
all the inputs; `count` is their number. -/
def callStream (f : StreamFunc) (count : Nat) (run : List Val → M (List Val)) (input : Val) :
    M (List Val) := do
  match f with
  | .map =>
    if count = 0 then fail "map expects an expression"
    return [← newArray P (← run (← overrideCollectionValues input))]
  | .filter =>
    if count = 0 then fail "filter expects an expression"
    let kept ← concatM (← overrideCollectionValues input) fun value => do
      if (← run [value]).any overrideTruthy then return [← cloneOverrideValue P value] else return []
    return [← newArray P kept]
  | .mapValues =>
    if count = 0 then fail "map_values expects an expression"
    match input with
    | .arr .. =>
      match ← cloneOverrideValue P input with
      | .arr ref len =>
        (List.range len).forM fun i => do
          match (← readArray ref len)[i]? with
          | some item =>
            match ← run [item] with
            | result :: _ => writeItem ref i (← cloneOverrideValue P result)
            | [] => pure ()
          | none => throw .dangling
        return [.arr ref len]
      | _ => throw .dangling
    | .map _ =>
      match ← cloneOverrideValue P input with
      | .map ref =>
        (P.range (← readMap ref).keys).forM fun key => do
          match ← run [(← readMap ref).get key] with
          | result :: _ => writeKey ref key (← cloneOverrideValue P result)
          | [] => pure ()
        return [.map ref]
      | _ => throw .dangling
    | _ => fail ("map_values only supports arrays and mappings, got " ++ overrideType input)
  | .toEntries =>
    if count ≠ 0 then fail "to_entries expects no arguments"
    match ← toOverrideEntries P input with
    | some entries => return [← newArray P entries]
    | none => return []
  | .fromEntries =>
    if count ≠ 0 then fail "from_entries expects no arguments"
    match input with
    | .arr ref len => return [← fromOverrideEntries P (← readArray ref len)]
    | _ => fail "from_entries only supports arrays"
  | .withEntries =>
    if count = 0 then fail "with_entries expects an expression"
    match input with
    | .map _ =>
      match ← toOverrideEntries P input with
      | some entries => return [← fromOverrideEntries P (← concatM entries fun entry => run [entry])]
      | none => return []
    | _ => fail ("with_entries only supports mappings, got " ++ overrideType input)
  | .anyC =>
    if count = 0 then fail "any_c expects a condition"
    return [.bool (← search run overrideTruthy (← arrayInput "any_c" input))]
  | .allC =>
    if count = 0 then fail "all_c expects a condition"
    return [.bool !(← search run (fun v => !overrideTruthy v) (← arrayInput "all_c" input))]
where
  search (run : List Val → M (List Val)) (test : Val → Bool) : List Val → M Bool
    | [] => pure false
    | item :: items => do
      match ← run [item] with
      | result :: _ => if test result then return true else search run test items
      | [] => search run test items

/-! ### Expressions -/

/-- What `evalOverrideSingle` makes of the results. -/
def singleResult : List Val → M Val
  | [] => pure .noMatch
  | [v] => pure v
  | _ => fail "expression produced several results; collect them with [...]"

def unlessNoMatch (v : Val) : List Val := if isOverrideNoMatch v then [] else [v]

/-- `overrideBinaryExpr.evalAll` for the results of the left side. -/
def evalBinary (op : BinOp) (lefts : List Val) (right : M (List Val)) : M (List Val) := do
  match op with
  | .alternative =>
    if lefts = [] then right
    else concatM lefts fun left => if overrideTruthy left then pure [left] else right
  | .and =>
    if lefts.any overrideTruthy then
      let rights ← right
      concatM lefts fun left =>
        if overrideTruthy left then rights.mapM' (evaluateOverrideBinary P .and left)
        else pure [.bool false]
    else return lefts.map fun _ => .bool false
  | .or =>
    if lefts.any fun left => !overrideTruthy left then
      let rights ← right
      concatM lefts fun left =>
        if overrideTruthy left then pure [.bool true]
        else rights.mapM' (evaluateOverrideBinary P .or left)
    else return lefts.map fun _ => .bool true
  | op =>
    let rights ← right
    concatM lefts fun left => rights.mapM' (evaluateOverrideBinary P op left)

def interpolated : List Val → M Str
  | [] => pure []
  | .scalar .null :: _ => pure (ascii "null")
  | .scalar .noMatch :: _ => do liftExcept (P.marshal (.leaf .noMatch))
  | .scalar s :: _ => pure (sprintScalar P s)
  | v :: _ => do liftExcept (P.marshal (← treeOf v))

def AssignOp.binary : AssignOp → BinOp
  | .sub => .sub
  | .mul => .mul
  | _ => .add

mutual

def evalInputs : Expr → List Val → M (List Val)
  | .literal v, inputs => concatM inputs fun _ => do
    return unlessNoMatch (← cloneOverrideValue P v)
  | .string parts, inputs => concatM inputs fun input => do return [.str (← evalParts parts input)]
  | .path p, inputs => concatM inputs (lookupOverridePathStream p)
  | .array values, inputs => concatM inputs fun input => do
    return [← newArray P (← evalEach values [input])]
  | .mapping entries, inputs => concatM inputs fun input => do
    return [← newMap (← evalEntries entries input ∅)]
  | .update p op value, inputs => concatM inputs fun input => do
    let root ← cloneOverrideValue P input
    match op with
    | .assign =>
      let result ← singleResult (← evalInputs value [root])
      if isOverrideNoMatch result then return unlessNoMatch root
      return unlessNoMatch (← updateOverridePath P p (fun _ => cloneOverrideValue P result) root)
    | .update =>
      return unlessNoMatch (← updateOverridePath P p (fun old => do
        let result ← singleResult (← evalInputs value [old])
        return if isOverrideNoMatch result then old else result) root)
    | op =>
      let result ← singleResult (← evalInputs value [root])
      return unlessNoMatch
        (← updateOverridePath P p (fun old => evaluateOverrideBinary P op.binary old result) root)
  | .binary op left right, inputs => concatM inputs fun input => do
    evalBinary P op (← evalInputs left [input]) (evalInputs right [input])
  | .call f args, inputs => concatM inputs fun input => do
    if isOverrideNoMatch input then return []
    return unlessNoMatch (← callFunction P f input (← evalArgs args input))
  | .stream f args, inputs => concatM inputs fun input =>
    callStream P f args.length (fun values => evalEach args values) input
  | .pipeline stages, inputs => concatM inputs fun input => evalStages stages [input]
  | .union values, inputs => evalEach values inputs

def evalEach : List Expr → List Val → M (List Val)
  | [], _ => pure []
  | e :: es, inputs => do
    let vs ← evalInputs e inputs
    let ws ← evalEach es inputs
    return vs ++ ws

def evalStages : List Expr → List Val → M (List Val)
  | [], inputs => pure inputs
  | e :: es, inputs => do evalStages es (← evalInputs e inputs)

def evalArgs : List Expr → Val → M (List Val)
  | [], _ => pure []
  | e :: es, input => do
    let v ← singleResult (← evalInputs e [input])
    let vs ← evalArgs es input
    return v :: vs

def evalEntries : List (Str × Expr) → Val → Mapping → M Mapping
  | [], _, m => pure m
  | (key, e) :: es, input, m => do
    match (← evalInputs e [input]).getLast? with
    | some v => evalEntries es input (m.insert key v)
    | none => evalEntries es input m

def evalParts : List Expr → Val → M Str
  | [], _ => pure []
  | e :: es, input => do
    let text ← interpolated P (← evalInputs e [input])
    return text ++ (← evalParts es input)

end

def evalOverrideStream (e : Expr) (input : Val) : M (List Val) := evalInputs P e [input]

def evalOverrideSingle (e : Expr) (input : Val) : M Val := do
  singleResult (← evalOverrideStream P e input)

end

end Mihomo.Override
