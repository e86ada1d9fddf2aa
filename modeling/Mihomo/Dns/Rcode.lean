import Mihomo.DevCache.Cache
import Mihomo.Dns.Message
import Mihomo.Go.Case

/-!
# Response code clients

A client list may hold a client that answers every question with a fixed response code. `batchExchange`
answers from it and says that the answer is not to be cached; `refreshAnswer` chooses the list and
decides what a refresh of the DNS cache publishes. The race between the clients of a list without such
a client is a parameter.
-/

namespace Mihomo.Dns
open Go Net DevCache

inductive Client where
  | rcode (code : Nat)
  | other (address : Str)
  deriving DecidableEq

/-- `newRCodeClient`; none is the panic. -/
def newRCodeClient (addr : String) : Option Client :=
  match addr with
  | "success" => some (.rcode rcodeSuccess)
  | "format_error" => some (.rcode rcodeFormatError)
  | "server_failure" => some (.rcode rcodeServerFailure)
  | "name_error" => some (.rcode rcodeNameError)
  | "not_implemented" => some (.rcode rcodeNotImplemented)
  | "refused" => some (.rcode rcodeRefused)
  | _ => none

structure Resolver where
  main : List Client
  fallback : Option (List Client)
  fallbackDomainFilters : List (Str → Bool)
  fallbackIPFilters : List (Addr → Bool)
  policy : List (Str → List Client)
  /-- The first usable answer of the clients, none of which is a response code client. -/
  race : List Client → Msg → Except String Msg

/-- `rcodeClient.ExchangeContext`. -/
def Msg.withRcode (m : Msg) (code : Nat) : Msg := { m with response := true, rcode := code }

def Client.code : Client → Option Nat
  | rcode code => some code
  | other _ => none

/-- `strings.TrimRight(name, ".")`. -/
def trimDots (name : Str) : Str := (name.reverse.dropWhile (· == '.'.toNat.toUInt8)).reverse

def msgToDomain (msg : Msg) : Str :=
  match msg.question with
  | q :: _ => trimDots q.name
  | [] => []

def isIPRequest (q : Question) : Bool :=
  q.qclass = classINET && (q.qtype = typeA || q.qtype = typeAAAA || q.qtype = typeCNAME)

namespace Resolver
variable (r : Resolver)

/-- `batchExchange`, with whether the answer may be cached. -/
def batchExchange (clients : List Client) (m : Msg) : Except String Msg × Bool :=
  match clients.findSome? Client.code with
  | some code => (.ok (m.withRcode code), false)
  | none => (r.race clients m, true)

def asyncExchange (clients : List Client) (m : Msg) : Except String Msg :=
  (r.batchExchange clients m).1

def matchPolicy (m : Msg) : List Client :=
  if msgToDomain m = [] then []
  else ((r.policy.map fun policy => policy (msgToDomain m)).find? fun clients => clients ≠ []).getD []

def shouldOnlyQueryFallback (m : Msg) : Bool :=
  r.fallback.isSome && msgToDomain m ≠ [] &&
    r.fallbackDomainFilters.any fun filter => filter (msgToDomain m)

def shouldIPFallback (ip : Addr) : Bool := r.fallbackIPFilters.any fun filter => filter ip

def ipExchange (m : Msg) : Except String Msg :=
  if r.matchPolicy m ≠ [] then r.asyncExchange (r.matchPolicy m) m
  else
    match r.fallback with
    | none => r.asyncExchange r.main m
    | some fallback =>
      if r.shouldOnlyQueryFallback m then r.asyncExchange fallback m
      else
        match r.asyncExchange r.main m with
        | .ok msg =>
          if msgToIP msg ≠ [] ∧ (msgToIP msg).all (fun ip => !r.shouldIPFallback ip) then .ok msg
          else r.asyncExchange fallback m
        | .error _ => r.asyncExchange fallback m

def negativeCacheTTL : Nat := 30

def minimalTTL (records : List RR) : Nat := (records.map fun rr => rr.ttl.toNat).min?.getD 0

/-- `prepareCachedMessage`: the message to be stored and its deadline. -/
def prepareCachedMessage (now : Int) (q : Question) (msg : Msg) : Msg × Int :=
  if q.qtype = typeTXT ∧ (ascii "_acme-challenge.").isPrefixOf q.name then (msg, zeroTime)
  else
    let msg := { msg with extra := msg.extra.filter fun rr => match rr.data with
      | .opt _ => false
      | _ => true }
    let ttl := minimalTTL (msg.answer ++ msg.ns ++ msg.extra)
    let ttl := if msg.answer = [] ∧ ttl < negativeCacheTTL then negativeCacheTTL else ttl
    (msg, now + ttl * 10 ^ 9)

def query (m : Msg) (q : Question) : Except String Msg × Bool :=
  if isIPRequest q then (r.ipExchange m, true)
  else if r.matchPolicy m ≠ [] then r.batchExchange (r.matchPolicy m) m
  else r.batchExchange r.main m

/-- The function that `refreshAnswer` gives to the cache. -/
def fetch (now : Int) (m : Msg) (q : Question) : Except String (Msg × Int) :=
  match r.query m q with
  | (.error text, _) => .error text
  | (.ok msg, cache) =>
    if msg.truncated ∨ msg.rcode ≠ rcodeSuccess ∧ msg.rcode ≠ rcodeNameError then
      .error "unusable DNS refresh response"
    else if cache then .ok (prepareCachedMessage now q msg)
    else .ok (msg, zeroTime)

/-- `ExchangeContext` for a question without a cached answer: the answer, and what the refresh stores
in the cache, which is nothing for an error and for the zero deadline. -/
def exchangeMiss (now : Int) (m : Msg) : Except String Msg × Option (Msg × Int) :=
  match m.question with
  | [q] =>
    let q' := { q with name := toLower q.name }
    match r.fetch now { m with question := [q'] } q' with
    | .ok (msg, due) =>
      (.ok { msg with id := m.id, question := m.question },
        if due = zeroTime then none else some (msg, due))
    | .error text => (.error text, none)
  | _ => (.error "should have one question", none)

/-! ### Lists with one response code client -/

def serving (m : Msg) : List Client := if r.matchPolicy m ≠ [] then r.matchPolicy m else r.main

def lowered (m : Msg) (q : Question) : Msg := { m with question := [{ q with name := toLower q.name }] }

def Single (clients : List Client) (code : Nat) : Prop :=
  ∃ before after, clients = before ++ .rcode code :: after ∧
    ∀ c ∈ before ++ after, c.code = none

def Synthetic (now : Int) (m : Msg) (code : Nat) : Prop :=
  (∃ reply, (r.exchangeMiss now m).1 = .ok reply ∧ reply.rcode = code) ∧
    (r.exchangeMiss now m).2 = none

variable {r} {code : Nat} {q : Question} {m : Msg} {now : Int}

theorem batchExchange_single {clients : List Client} (h : Single clients code) (m : Msg) :
    r.batchExchange clients m = (.ok (m.withRcode code), false) := by
  obtain ⟨before, after, rfl, hnone⟩ := h
  have hbefore : before.findSome? Client.code = none := by
    rw [List.findSome?_eq_none_iff]
    exact fun c hc => hnone c (List.mem_append_left _ hc)
  unfold batchExchange
  rw [List.findSome?_append, hbefore]
  rfl

theorem query_single (h : Single (r.serving m) code)
    (hfallback : r.matchPolicy m = [] → r.fallback = none) :
    r.query m q = (.ok (m.withRcode code), isIPRequest q) := by
  unfold serving at h
  unfold query ipExchange asyncExchange
  split at h
  next hpolicy =>
    rw [if_pos hpolicy, if_pos hpolicy, batchExchange_single h]
    cases isIPRequest q <;> rfl
  next hpolicy =>
    rw [if_neg hpolicy, if_neg hpolicy, hfallback (not_not.mp hpolicy), batchExchange_single h]
    cases isIPRequest q <;> rfl

theorem prepareCachedMessage_due (hnow : zeroTime < now)
    (hq : isIPRequest q = true) (msg : Msg) : (prepareCachedMessage now q msg).2 ≠ zeroTime := by
  have htxt : q.qtype ≠ typeTXT := by
    intro htxt
    rw [isIPRequest, htxt] at hq
    revert hq
    simp [typeTXT, typeA, typeAAAA, typeCNAME]
  unfold prepareCachedMessage
  rw [if_neg fun h => htxt h.1]
  dsimp only
  omega

def Usable (m : Msg) (code : Nat) : Prop :=
  (code = rcodeSuccess ∨ code = rcodeNameError) ∧ m.truncated = false

theorem usable_iff (m : Msg) (code : Nat) : Usable m code ↔
    ¬ (m.truncated = true ∨ code ≠ rcodeSuccess ∧ code ≠ rcodeNameError) := by
  unfold Usable
  rw [not_or, Bool.not_eq_true, and_comm, not_and_or, not_not, not_not]

theorem fetch_single (now : Int)
    (h : Single (r.serving m) code) (hfallback : r.matchPolicy m = [] → r.fallback = none) :
    (¬ Usable m code → r.fetch now m q = .error "unusable DNS refresh response") ∧
      (Usable m code → r.fetch now m q =
        .ok (if isIPRequest q then prepareCachedMessage now q (m.withRcode code)
          else (m.withRcode code, zeroTime))) := by
  unfold fetch
  rw [query_single h hfallback, usable_iff, not_not]
  constructor
  · intro hbad
    exact if_pos hbad
  · intro hgood
    refine (if_neg hgood).trans ?_
    cases isIPRequest q <;> rfl

theorem exchangeMiss_eq (hq : m.question = [q]) :
    r.exchangeMiss now m = match r.fetch now (lowered m q) { q with name := toLower q.name } with
      | .ok item => (.ok { item.1 with id := m.id, question := m.question },
        if item.2 = zeroTime then none else some item)
      | .error text => (.error text, none) := by
  unfold exchangeMiss lowered
  rw [hq]
  dsimp only
  cases r.fetch now _ _ <;> rfl

/-- The synthetic answer passes through a refresh if and only if the question is no address question,
the code is one that the cache takes, and the query is not marked as truncated. -/
theorem synthetic_iff (r : Resolver) (now : Int) (hnow : zeroTime < now) (m : Msg) (q : Question)
    (hq : m.question = [q]) (code : Nat) (hsingle : Single (r.serving (lowered m q)) code)
    (hfallback : r.matchPolicy (lowered m q) = [] → r.fallback = none) :
    r.Synthetic now m code ↔ isIPRequest q = false ∧
      (code = rcodeSuccess ∨ code = rcodeNameError) ∧ m.truncated = false := by
  obtain ⟨hbad, hgood⟩ := fetch_single (r := r)
    (q := { q with name := toLower q.name }) now hsingle hfallback
  unfold Synthetic
  by_cases husable : Usable (lowered m q) code
  · have hfetch := hgood husable
    change _ = Except.ok (if isIPRequest q then _ else _) at hfetch
    cases hip : isIPRequest q with
    | true =>
      rw [hip, if_pos rfl] at hfetch
      have hdue := prepareCachedMessage_due (q := { q with name := toLower q.name }) hnow hip
        ((lowered m q).withRcode code)
      rw [exchangeMiss_eq hq, hfetch]
      dsimp only
      rw [if_neg hdue]
      exact iff_of_false (fun h => nomatch h.2) nofun
    | false =>
      rw [hip, if_neg Bool.false_ne_true] at hfetch
      rw [exchangeMiss_eq hq, hfetch]
      exact iff_of_true ⟨⟨_, rfl, rfl⟩, rfl⟩ ⟨rfl, husable⟩
  · rw [exchangeMiss_eq hq, hbad husable]
    refine iff_of_false (fun h => ?_) fun h => husable h.2
    obtain ⟨reply, hreply, -⟩ := h.1
    cases hreply

def only (code : Nat) : Resolver where
  main := [.rcode code]
  fallback := none
  fallbackDomainFilters := []
  fallbackIPFilters := []
  policy := []
  race := fun _ _ => .error "all DNS requests failed"

def ask (qtype : UInt16) : Msg where
  id := 1
  response := false
  rcode := 0
  truncated := false
  authenticatedData := false
  question := [{ name := ascii "a.", qtype, qclass := classINET }]
  answer := []
  ns := []
  extra := []

theorem only_single (code : Nat) (m : Msg) : Single ((only code).serving m) code := by
  have hpolicy : (only code).matchPolicy m = [] := by
    unfold matchPolicy
    split <;> rfl
  unfold serving
  rw [hpolicy]
  exact ⟨[], [], rfl, nofun⟩

theorem synthetic_iff_sample : (only rcodeNameError).Synthetic 0 (ask typeTXT) rcodeNameError :=
  (synthetic_iff (only rcodeNameError) 0 (by decide) (ask typeTXT)
    { name := ascii "a.", qtype := typeTXT, qclass := classINET } rfl rcodeNameError
    (only_single _ _) fun _ => rfl).mpr ⟨rfl, .inr rfl, rfl⟩

/-- A refused TXT question gets an error in place of the code, and a denied A question is stored. -/
theorem synthetic_dropped_and_stored :
    (only rcodeRefused).exchangeMiss 0 (ask typeTXT) = (.error "unusable DNS refresh response", none) ∧
      ((only rcodeNameError).exchangeMiss 0 (ask typeA)).2.isSome = true := by
  constructor
  · rw [exchangeMiss_eq rfl, (fetch_single _ (only_single _ _) fun _ => rfl).1]
    rintro ⟨hcode | hcode, -⟩ <;> cases hcode
  · rfl

end Resolver

end Mihomo.Dns
