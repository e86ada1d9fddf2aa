import Mihomo.Lib.Custody
import Mihomo.Tunnel.UdpMapping

/-!
# The queue of a packet sender

`Send` takes a slot for a packet and puts it in a channel; one `Process` loop takes the packets out,
groups those whose target is not known yet, lets workers resolve the targets, and writes the packets;
`Close` cancels the context and drains the channel.

A step is what one goroutine does between two points at which another one can be observed. `Send` runs
with the read lock of `sendMutex` and `Close` with the write lock. Which ready case a `select` takes
and the outcome of a resolver are part of the event.
-/

namespace Mihomo.Tunnel.Udp
open Go Net Lib

universe u

def senderCapacity : Nat := 128

/-- A goroutine that resolves a target; its result is none until it has one. A failure has no
metadata. -/
structure Worker where
  key : PrepareKey
  result : Option (Option Metadata)
  deriving DecidableEq

inductive Closer (P : Type u) where
  | idle
  | locked
  | draining (hand : Option P)

/-- Where the loop of `processPreparedPackets` is. A packet is written alone, or as one of a group
whose rest follows. -/
inductive Loop (P : Type u) where
  | select
  | received (packet : P)
  | writing (packet : P) (rest : Option (List P))
  | wrote (packet : P) (rest : Option (List P))
  | group (rest : List P)
  | dropping (rest : List P)
  | starting
  | exiting
  | draining (hand : Option P)
  | exited

structure Sender (P : Type u) where
  books : Books P := {}
  /-- The packets of the calls of `Send` that hold the read lock: before the check of the context,
  before taking a slot, and with a slot. -/
  entered : List P := []
  checked : List P := []
  slotted : List P := []
  ch : List P := []
  cancelled : Bool := false
  closer : Closer P := .idle
  /-- A call of `Close` has returned. -/
  closed : Bool := false
  loop : Loop P := .select
  pending : AList fun _ : PrepareKey => List P := ∅
  waiting : List PrepareKey := []
  active : Nat := 0
  workers : List Worker := []
  mapping : Mapping := .new
  /-- The packets put in the channel, those written, and those whose `Send` has returned. -/
  accepted : List P := []
  written : List P := []
  returned : List P := []
  /-- For a packet, those whose `Send` had returned when its own was called. -/
  earlier : P → List P := fun _ => []

structure Setting (P : Type u) where
  metadata : P → Metadata
  parse : Str → UInt16 → Socksaddr
  /-- `workers`: one, or eight for a connection that allows concurrent calls of `ResolveUDP`. -/
  limit : Nat

inductive Event (P : Type u) where
  | enter (packet : P)
  | check (packet : P)
  | takeSlot (packet : P)
  | put (packet : P) (accept : Bool)
  | lock
  | cancel
  | drain
  | done
  | receive
  | ready (worker : Worker)
  | advance (outcome : Option Metadata)
  | dropPending (key : PrepareKey)
  | resolved (key : PrepareKey) (outcome : Option Metadata)
  | leave (worker : Worker)
  | addMapping (origin metadata : Metadata)

inductive Halt where
  | disabled
  | nilGroup
  deriving DecidableEq

namespace Sender
variable {P : Type u} [DecidableEq P] (c : Setting P) (s : Sender P)

def key (packet : P) : PrepareKey := udpPacketKey (c.metadata packet)

def drop (packet : P) : Sender P := { s with books := s.books.drop packet }

def reject (packet : P) : Sender P :=
  { s with books := s.books.reject packet, returned := packet :: s.returned }

def send : Event P → Except Halt (Sender P)
  | .enter packet =>
    match s.closer with
    | .idle =>
      if packet ∈ s.books.given then .error .disabled
      else
        .ok { s with
          books := s.books.give packet
          entered := packet :: s.entered
          earlier := Function.update s.earlier packet s.returned }
    | _ => .error .disabled
  | .check packet =>
    if packet ∈ s.entered then
      if s.cancelled then .ok ({ s with entered := s.entered.erase packet }.reject packet)
      else .ok { s with entered := s.entered.erase packet, checked := packet :: s.checked }
    else .error .disabled
  | .takeSlot packet =>
    if packet ∈ s.checked then
      if s.books.slots < senderCapacity then
        .ok { s with
          books := s.books.slot packet
          checked := s.checked.erase packet
          slotted := packet :: s.slotted }
      else .ok ({ s with checked := s.checked.erase packet }.reject packet)
    else .error .disabled
  | .put packet accept =>
    if packet ∈ s.slotted then
      let s := { s with slotted := s.slotted.erase packet }
      if accept then
        if s.ch.length < senderCapacity then
          .ok { s with
            ch := s.ch ++ [packet]
            accepted := s.accepted ++ [packet]
            returned := packet :: s.returned }
        else .error .disabled
      else if s.cancelled ∨ ¬ s.ch.length < senderCapacity then
        .ok { s.drop packet with returned := packet :: s.returned }
      else .error .disabled
    else .error .disabled
  | _ => .error .disabled

def close : Event P → Except Halt (Sender P)
  | .lock =>
    match s.closer with
    | .idle =>
      if s.entered = [] ∧ s.checked = [] ∧ s.slotted = [] then .ok { s with closer := .locked }
      else .error .disabled
    | _ => .error .disabled
  | .cancel =>
    match s.closer with
    | .locked => .ok { s with cancelled := true, closer := .draining none }
    | _ => .error .disabled
  | .drain =>
    match s.closer with
    | .draining (some packet) => .ok { s.drop packet with closer := .draining none }
    | .draining none =>
      match s.ch with
      | packet :: rest => .ok { s with ch := rest, closer := .draining (some packet) }
      | [] => .ok { s with closer := .idle, closed := true }
    | _ => .error .disabled
  | _ => .error .disabled

/-- The next step of the loop away from its `select`. -/
def advance (outcome : Option Metadata) : Except Halt (Sender P) :=
  match s.loop with
  | .received packet =>
    if s.cancelled then .ok { s.drop packet with loop := .exiting }
    else
      match s.pending.lookup (key c packet) with
      | some packets =>
        .ok { s with
          pending := s.pending.insert (key c packet) (packets ++ [packet])
          loop := .select }
      | none =>
        if (s.mapping.preparedTargets (key c packet)).isValid then
          .ok { s with loop := .writing packet none }
        else
          .ok { s with
            pending := s.pending.insert (key c packet) [packet]
            waiting := s.waiting ++ [key c packet]
            loop := .starting }
  | .writing packet rest =>
    -- `processPacket`, up to the deferred `Drop`
    if (s.mapping.preparedTargets (key c packet)).isValid then
      .ok { s with written := s.written ++ [packet], loop := .wrote packet rest }
    else
      match outcome with
      | some metadata =>
        if (udpDestination c.parse metadata).isValid then
          .ok { s with
            mapping := s.mapping.addMapping c.parse (c.metadata packet) metadata
            written := s.written ++ [packet]
            loop := .wrote packet rest }
        else .ok { s with loop := .wrote packet rest }
      | none => .ok { s with loop := .wrote packet rest }
  | .wrote packet none => .ok { s.drop packet with loop := .select }
  | .wrote packet (some rest) => .ok { s.drop packet with loop := .group rest }
  | .group [] => .ok { s with loop := .starting }
  | .group (packet :: rest) =>
    if s.cancelled then .ok { s.drop packet with loop := .group rest }
    else .ok { s with loop := .writing packet (some rest) }
  | .dropping [] => .ok { s with loop := .starting }
  | .dropping (packet :: rest) => .ok { s.drop packet with loop := .dropping rest }
  | .starting =>
    match s.waiting with
    | [] => .ok { s with loop := .select }
    | key :: rest =>
      if s.cancelled = false ∧ s.active < c.limit then
        match s.pending.lookup key with
        | some (_ :: _) =>
          .ok { s with
            waiting := rest
            active := s.active + 1
            workers := s.workers ++ [⟨key, none⟩] }
        | _ => .error .nilGroup
      else .ok { s with loop := .select }
  | .exiting => if s.pending.entries = [] then .ok { s with loop := .draining none } else .error .disabled
  | .draining (some packet) => .ok { s.drop packet with loop := .draining none }
  | .draining none =>
    match s.ch with
    | packet :: rest => .ok { s with ch := rest, loop := .draining (some packet) }
    | [] => .ok { s with loop := .exited }
  | .select => .error .disabled
  | .exited => .error .disabled

def takeResult (worker : Worker) (result : Option Metadata) : Except Halt (Sender P) :=
  let s := { s with active := s.active - 1, workers := s.workers.erase worker }
  match s.pending.lookup worker.key with
  | some (packet :: rest) =>
    let s := { s with pending := s.pending.erase worker.key }
    match result with
    | none => .ok { s with loop := .dropping (packet :: rest) }
    | some metadata =>
      .ok { s with
        mapping := s.mapping.addMapping c.parse (c.metadata packet) metadata
        loop := .group (packet :: rest) }
  | _ => .error .nilGroup

/-- The steps of `processPreparedPackets`. -/
def process : Event P → Except Halt (Sender P)
  | .done =>
    match s.loop with
    | .select => if s.cancelled then .ok { s with loop := .exiting } else .error .disabled
    | _ => .error .disabled
  | .receive =>
    match s.loop, s.ch with
    | .select, packet :: rest => .ok { s with ch := rest, loop := .received packet }
    | _, _ => .error .disabled
  | .ready worker =>
    match s.loop, worker.result with
    | .select, some result =>
      if worker ∈ s.workers then s.takeResult c worker result else .error .disabled
    | _, _ => .error .disabled
  | .advance outcome => s.advance c outcome
  | .dropPending key =>
    match s.loop, s.pending.lookup key with
    | .exiting, some (packet :: rest) =>
      .ok { s.drop packet with pending := s.pending.insert key rest }
    | .exiting, some [] => .ok { s with pending := s.pending.erase key }
    | _, _ => .error .disabled
  | _ => .error .disabled

def work : Event P → Except Halt (Sender P)
  | .resolved key outcome =>
    if ⟨key, none⟩ ∈ s.workers then
      let result := outcome.filter fun metadata => (udpDestination c.parse metadata).isValid
      .ok { s with workers := ⟨key, some result⟩ :: s.workers.erase ⟨key, none⟩ }
    else .error .disabled
  | .leave worker =>
    if worker ∈ s.workers ∧ worker.result.isSome ∧ s.cancelled then
      .ok { s with workers := s.workers.erase worker }
    else .error .disabled
  | _ => .error .disabled

def step (event : Event P) : Except Halt (Sender P) :=
  match event with
  | .enter _ | .check _ | .takeSlot _ | .put _ _ => s.send event
  | .lock | .cancel | .drain => s.close event
  | .done | .receive | .ready _ | .advance _ | .dropPending _ => s.process c event
  | .resolved _ _ | .leave _ => s.work c event
  | .addMapping origin metadata =>
    .ok { s with mapping := s.mapping.addMapping c.parse origin metadata }

variable {c s}

inductive Change (c : Setting P) (s : Sender P) : Sender P → Prop
  | enter {packet : P} (hidle : s.closer = .idle) (hfresh : packet ∉ s.books.given) :
      Change c s { s with
        books := s.books.give packet
        entered := packet :: s.entered
        earlier := Function.update s.earlier packet s.returned }
  | check {packet : P} (hmem : packet ∈ s.entered) (hopen : s.cancelled = false) :
      Change c s { s with entered := s.entered.erase packet, checked := packet :: s.checked }
  | rejectEntered {packet : P} (hmem : packet ∈ s.entered) :
      Change c s ({ s with entered := s.entered.erase packet }.reject packet)
  | takeSlot {packet : P} (hmem : packet ∈ s.checked) (hroom : s.books.slots < senderCapacity) :
      Change c s { s with
        books := s.books.slot packet
        checked := s.checked.erase packet
        slotted := packet :: s.slotted }
  | rejectChecked {packet : P} (hmem : packet ∈ s.checked) :
      Change c s ({ s with checked := s.checked.erase packet }.reject packet)
  | put {packet : P} (hmem : packet ∈ s.slotted) :
      Change c s { s with
        slotted := s.slotted.erase packet
        ch := s.ch ++ [packet]
        accepted := s.accepted ++ [packet]
        returned := packet :: s.returned }
  | refuse {packet : P} (hmem : packet ∈ s.slotted) :
      Change c s { s.drop packet with
        slotted := s.slotted.erase packet
        returned := packet :: s.returned }
  | lock (hidle : s.closer = .idle) (hnone : s.entered = [] ∧ s.checked = [] ∧ s.slotted = []) :
      Change c s { s with closer := .locked }
  | cancel (hlocked : s.closer = .locked) :
      Change c s { s with cancelled := true, closer := .draining none }
  | closerDrop {packet : P} (hhand : s.closer = .draining (some packet)) :
      Change c s { s.drop packet with closer := .draining none }
  | closerTake {packet : P} {rest : List P} (hhand : s.closer = .draining none)
      (hch : s.ch = packet :: rest) :
      Change c s { s with ch := rest, closer := .draining (some packet) }
  | closerEnd (hhand : s.closer = .draining none) (hch : s.ch = []) :
      Change c s { s with closer := .idle, closed := true }
  | done (hloop : s.loop = .select) (hdone : s.cancelled = true) :
      Change c s { s with loop := .exiting }
  | take {packet : P} {rest : List P} (hloop : s.loop = .select) (hch : s.ch = packet :: rest) :
      Change c s { s with ch := rest, loop := .received packet }
  | giveUp {packet : P} (hloop : s.loop = .received packet) (hdone : s.cancelled = true) :
      Change c s { s.drop packet with loop := .exiting }
  | join {packet : P} {packets : List P} (hloop : s.loop = .received packet)
      (hgroup : s.pending.lookup (key c packet) = some packets) :
      Change c s { s with
        pending := s.pending.insert (key c packet) (packets ++ [packet])
        loop := .select }
  | direct {packet : P} (hloop : s.loop = .received packet)
      (hgroup : s.pending.lookup (key c packet) = none) :
      Change c s { s with loop := .writing packet none }
  | gather {packet : P} (hloop : s.loop = .received packet)
      (hgroup : s.pending.lookup (key c packet) = none) :
      Change c s { s with
        pending := s.pending.insert (key c packet) [packet]
        waiting := s.waiting ++ [key c packet]
        loop := .starting }
  | write {packet : P} {rest : Option (List P)} (hloop : s.loop = .writing packet rest)
      (mapping : Mapping) :
      Change c s { s with mapping, written := s.written ++ [packet], loop := .wrote packet rest }
  | skip {packet : P} {rest : Option (List P)} (hloop : s.loop = .writing packet rest) :
      Change c s { s with loop := .wrote packet rest }
  | dropWritten {packet : P} {rest : Option (List P)} (hloop : s.loop = .wrote packet rest) :
      Change c s { s.drop packet with loop := rest.elim .select .group }
  | dropGroup {packet : P} {rest : List P} (hloop : s.loop = .group (packet :: rest)) :
      Change c s { s.drop packet with loop := .group rest }
  | next {packet : P} {rest : List P} (hloop : s.loop = .group (packet :: rest)) :
      Change c s { s with loop := .writing packet (some rest) }
  | dropFailed {packet : P} {rest : List P} (hloop : s.loop = .dropping (packet :: rest)) :
      Change c s { s.drop packet with loop := .dropping rest }
  | finish (hloop : s.loop = .group [] ∨ s.loop = .dropping []) :
      Change c s { s with loop := .starting }
  | start {key : PrepareKey} {rest : List PrepareKey} (hloop : s.loop = .starting)
      (hwaiting : s.waiting = key :: rest) :
      Change c s { s with
        waiting := rest
        active := s.active + 1
        workers := s.workers ++ [⟨key, none⟩]
        loop := .starting }
  | started (hloop : s.loop = .starting) : Change c s { s with loop := .select }
  | result {worker : Worker} {packet : P} {rest : List P} (hloop : s.loop = .select)
      (hworker : worker ∈ s.workers)
      (hgroup : s.pending.lookup worker.key = some (packet :: rest)) (loop : Loop P)
      (hnext : loop = .group (packet :: rest) ∨ loop = .dropping (packet :: rest))
      (mapping : Mapping) :
      Change c s { s with
        active := s.active - 1
        workers := s.workers.erase worker
        pending := s.pending.erase worker.key
        mapping
        loop }
  | dropPending {key : PrepareKey} {packet : P} {rest : List P} (hloop : s.loop = .exiting)
      (hgroup : s.pending.lookup key = some (packet :: rest)) :
      Change c s { s.drop packet with pending := s.pending.insert key rest }
  | forget {key : PrepareKey} (hloop : s.loop = .exiting) (hgroup : s.pending.lookup key = some []) :
      Change c s { s with pending := s.pending.erase key }
  | exit (hloop : s.loop = .exiting) (hpending : s.pending.entries = []) :
      Change c s { s with loop := .draining none }
  | drainDrop {packet : P} (hloop : s.loop = .draining (some packet)) :
      Change c s { s.drop packet with loop := .draining none }
  | drainTake {packet : P} {rest : List P} (hloop : s.loop = .draining none)
      (hch : s.ch = packet :: rest) :
      Change c s { s with ch := rest, loop := .draining (some packet) }
  | drainEnd (hloop : s.loop = .draining none) (hch : s.ch = []) :
      Change c s { s with loop := .exited }
  | resolve {key : PrepareKey} {result : Option Metadata} (hmem : ⟨key, none⟩ ∈ s.workers) :
      Change c s { s with workers := ⟨key, some result⟩ :: s.workers.erase ⟨key, none⟩ }
  | leave {worker : Worker} (hmem : worker ∈ s.workers) :
      Change c s { s with workers := s.workers.erase worker }
  | map (mapping : Mapping) : Change c s { s with mapping }

variable {t : Sender P} {event : Event P}

theorem send_change (h : s.send event = .ok t) : Change c s t := by
  revert h
  fun_cases send s event
  all_goals
    intro h
    cases h
  case case2 hidle hfresh => exact .enter hidle hfresh
  case case4 hmem _ => exact .rejectEntered hmem
  case case5 hmem hopen => exact .check hmem (Bool.eq_false_iff.mpr hopen)
  case case7 hmem hroom => exact .takeSlot hmem hroom
  case case8 hmem _ => exact .rejectChecked hmem
  case case10 hmem _ _ => exact .put hmem
  case case12 hmem _ _ _ => exact .refuse hmem

theorem close_change (h : s.close event = .ok t) : Change c s t := by
  revert h
  fun_cases close s event
  all_goals
    intro h
    cases h
  case case1 hidle hnone => exact .lock hidle hnone
  case case4 hlocked => exact .cancel hlocked
  case case6 hhand => exact .closerDrop hhand
  case case7 hhand _ _ hch => exact .closerTake hhand hch
  case case8 hhand hch => exact .closerEnd hhand hch

variable {outcome : Option Metadata}

theorem advance_change (h : s.advance c outcome = .ok t) : Change c s t := by
  revert h
  fun_cases advance c s outcome
  all_goals
    intro h
    cases h
  case case1 hloop hdone => exact .giveUp hloop hdone
  case case2 hloop _ _ hgroup => exact .join hloop hgroup
  case case3 hloop _ hgroup _ => exact .direct hloop hgroup
  case case4 hloop _ hgroup _ => exact .gather hloop hgroup
  case case5 hloop _ => exact .write hloop s.mapping
  case case6 hloop _ _ _ => exact .write hloop _
  case case7 hloop _ _ _ => exact .skip hloop
  case case8 hloop _ => exact .skip hloop
  case case9 hloop => exact .dropWritten hloop
  case case10 hloop => exact .dropWritten hloop
  case case11 hloop => exact .finish (.inl hloop)
  case case12 hloop _ => exact .dropGroup hloop
  case case13 hloop _ => exact .next hloop
  case case14 hloop => exact .finish (.inr hloop)
  case case15 hloop => exact .dropFailed hloop
  case case16 hloop _ => exact .started hloop
  case case17 hloop _ _ hwaiting _ _ _ _ => exact hloop ▸ .start hloop hwaiting
  case case19 hloop _ _ _ _ => exact .started hloop
  case case20 hloop hpending => exact .exit hloop hpending
  case case22 hloop => exact .drainDrop hloop
  case case23 hloop _ _ hch => exact .drainTake hloop hch
  case case24 hloop hch => exact .drainEnd hloop hch

theorem takeResult_change {worker : Worker} {result : Option Metadata} (hloop : s.loop = .select)
    (hworker : worker ∈ s.workers) (h : s.takeResult c worker result = .ok t) : Change c s t := by
  revert h
  fun_cases takeResult c s worker result
  all_goals
    intro h
    cases h
  case case1 hgroup _ => exact .result hloop hworker hgroup _ (.inr rfl) s.mapping
  case case2 hgroup _ _ => exact .result hloop hworker hgroup _ (.inl rfl) _

theorem process_change (h : s.process c event = .ok t) : Change c s t := by
  revert h
  fun_cases process c s event
  case case6 hloop hworker => exact takeResult_change hloop hworker
  case case9 => exact advance_change
  all_goals
    intro h
    cases h
  case case1 hloop hdone => exact .done hloop hdone
  case case4 hch hloop => exact .take hloop hch
  case case10 hgroup hloop => exact .dropPending hloop hgroup
  case case11 hgroup hloop => exact .forget hloop hgroup

theorem work_change (h : s.work c event = .ok t) : Change c s t := by
  revert h
  fun_cases work c s event
  all_goals
    intro h
    cases h
  case case1 hmem _ => exact .resolve hmem
  case case3 hmem => exact .leave hmem.1

theorem step_change (h : s.step c event = .ok t) : Change c s t := by
  cases event with
  | enter | check | takeSlot | put =>
    simp only [step] at h
    exact send_change h
  | lock | cancel | drain =>
    simp only [step] at h
    exact close_change h
  | done | receive | ready | advance | dropPending =>
    simp only [step] at h
    exact process_change h
  | resolved | leave =>
    simp only [step] at h
    exact work_change h
  | addMapping origin metadata =>
    cases h
    exact .map _

end Sender

end Mihomo.Tunnel.Udp
