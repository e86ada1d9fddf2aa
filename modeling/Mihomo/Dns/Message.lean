import Mihomo.Net.Slice

/-!
# DNS messages

The header flags that the resolver reads or sets, the question, and the records of the three sections.
A record carries its data in the Go type that was decoded for it, so a service parameter with the key
of an address hint may still be of another representation.
-/

namespace Mihomo.Dns
open Go Net

def typeA : UInt16 := 1
def typeCNAME : UInt16 := 5
def typeTXT : UInt16 := 16
def typeAAAA : UInt16 := 28
def typeOPT : UInt16 := 41
def typeRRSIG : UInt16 := 46
def typeSVCB : UInt16 := 64
def typeHTTPS : UInt16 := 65

def classINET : UInt16 := 1

def rcodeSuccess : Nat := 0
def rcodeFormatError : Nat := 1
def rcodeServerFailure : Nat := 2
def rcodeNameError : Nat := 3
def rcodeNotImplemented : Nat := 4
def rcodeRefused : Nat := 5

/-- `SVCBKeyValue`: the types that are told apart, and every other one with its key. -/
inductive SvcValue where
  | mandatory (code : List UInt16)
  | ipv4Hint (hint : List Str)
  | ipv6Hint (hint : List Str)
  | other (key : UInt16) (data : Str)
  deriving DecidableEq

def keyMandatory : UInt16 := 0
def keyIPv4Hint : UInt16 := 4
def keyIPv6Hint : UInt16 := 6

def SvcValue.key : SvcValue → UInt16
  | mandatory _ => keyMandatory
  | ipv4Hint _ => keyIPv4Hint
  | ipv6Hint _ => keyIPv6Hint
  | other key _ => key

inductive RData where
  | a (ip : Str)
  | aaaa (ip : Str)
  | https (priority : UInt16) (target : Str) (value : List SvcValue)
  | svcb (priority : UInt16) (target : Str) (value : List SvcValue)
  | rrsig (typeCovered : UInt16) (data : Str)
  | opt (data : Str)
  | other (type : UInt16) (data : Str)
  deriving DecidableEq

structure RR where
  name : Str
  ttl : UInt32
  data : RData
  deriving DecidableEq

structure Question where
  name : Str
  qtype : UInt16
  qclass : UInt16
  deriving DecidableEq

structure Msg where
  id : UInt16 := 0
  response : Bool := false
  rcode : Nat := rcodeSuccess
  truncated : Bool := false
  authenticatedData : Bool := false
  question : List Question
  answer : List RR := []
  ns : List RR := []
  extra : List RR := []
  deriving DecidableEq

def RData.addr : RData → Option Addr
  | a ip | aaaa ip => (Addr.fromSlice ip).map Addr.unmap
  | _ => none

def msgToIP (msg : Msg) : List Addr := msg.answer.filterMap fun rr => rr.data.addr

end Mihomo.Dns
