import Mathlib.Data.List.AList
import Mihomo.Go.Text

/-!
# Overrides of proxy mappings (adapter/provider/override.go)

A proxy of a provider is a mapping from field names to values until it is parsed. An override sets
fields, renames the proxy and runs expressions, which are functions of their arguments here.
-/

namespace Mihomo.Provider
open Go
inductive Value where
  | null
  | bool (b : Bool)
  | int (i : Int)
  | float (bits : UInt64)
  | string (s : Str)
  | list (values : List Value)
  | map (fields : List (Str × Value))

abbrev Mapping := AList (fun _ : Str => Value)

namespace Mapping

def text (m : Mapping) (field : String) : Option Str :=
  match m.lookup (ascii field) with
  | some (.string s) => some s
  | _ => none

def assign {α : Type} (m : Mapping) (field : String) (value : α → Value) : Option α → Mapping
  | some a => m.insert (ascii field) (value a)
  | none => m

def name (m : Mapping) : Option Str := m.text "name"

end Mapping

/-- The errors of an override and of a parser; a number is the index of an expression or of a mapping. -/
inductive Error where
  | nameReplace (err : Str)
  | overrideExpr (idx : Nat) (source err : Str)
  /-- The panic of `mapping["name"].(string)`. -/
  | nameNoString
  | override (idx : Nat) (err : Error)
  | proxy (idx : Nat) (err : Str)
  | noMatch
  | noProxy

structure OverrideExpr where
  source : Str
  run : Mapping → Except Str Mapping

structure Override where
  tfo : Option Bool := none
  mptcp : Option Bool := none
  udp : Option Bool := none
  udpOverTCP : Option Bool := none
  up : Option Str := none
  down : Option Str := none
  dialerProxy : Option Str := none
  skipCertVerify : Option Bool := none
  nameCertVerify : Option Str := none
  interface : Option Str := none
  routingMark : Option Int := none
  ipVersion : Option Str := none
  additionalPrefix : Option Str := none
  additionalSuffix : Option Str := none
  /-- The replacement of the matches of each pattern by its target. -/
  proxyName : List (Str → Except Str Str) := []
  overrideExpr : List OverrideExpr := []

namespace Override

def setFields (o : Override) (m : Mapping) : Mapping :=
  let m := m.assign "tfo" .bool o.tfo
  let m := m.assign "mptcp" .bool o.mptcp
  let m := m.assign "udp" .bool o.udp
  let m := m.assign "udp-over-tcp" .bool o.udpOverTCP
  let m := m.assign "up" .string o.up
  let m := m.assign "down" .string o.down
  let m := m.assign "dialer-proxy" .string o.dialerProxy
  let m := m.assign "skip-cert-verify" .bool o.skipCertVerify
  let m := m.assign "name-cert-verify" .string o.nameCertVerify
  let m := m.assign "interface-name" .string o.interface
  let m := m.assign "routing-mark" .int o.routingMark
  m.assign "ip-version" .string o.ipVersion

def replaceAll : List (Str → Except Str Str) → Str → Except Error Str
  | [], name => .ok name
  | replace :: rest, name =>
    match replace name with
    | .ok name => replaceAll rest name
    | .error err => .error (.nameReplace err)

def rename (o : Override) (m : Mapping) : Except Error Mapping :=
  if o.proxyName.isEmpty ∧ o.additionalPrefix.isNone ∧ o.additionalSuffix.isNone then .ok m
  else
    match m.name with
    | none => .error .nameNoString
    | some name =>
      match replaceAll o.proxyName name with
      | .error err => .error err
      | .ok name =>
        .ok (m.insert (ascii "name")
          (.string (o.additionalPrefix.getD [] ++ name ++ o.additionalSuffix.getD [])))

def runExprs : Nat → List OverrideExpr → Mapping → Except Error Mapping
  | _, [], m => .ok m
  | idx, expr :: rest, m =>
    match expr.run m with
    | .ok m => runExprs (idx + 1) rest m
    | .error err => .error (.overrideExpr idx expr.source err)

def apply (o : Override) (m : Mapping) : Except Error Mapping :=
  match o.rename (o.setFields m) with
  | .ok m => runExprs 0 o.overrideExpr m
  | .error err => .error err

end Override

end Mihomo.Provider
