import Hqq.Machine
import Hqq.Slots
import Hqq.Negotiation.Spec
import Mathlib.Algebra.Order.Group.Nat

/-!
# Opening a stream in C

`hqq_adv_stream.c`. The receive path handles one frame at a time under `a->lock`, and a call of
`hqq_adv_open_stream` takes the same lock before it sends and each time it wakes up.
-/

namespace Hqq.COpen

inductive Status where
  | ok
  | closed
  | peerClosed
  | memoryAlign
  | invalidSize
  | memorySmall
  | failedInit
  | connNotFound
  | invalidOp
  | bufferOverflow
  | shuttingDown
  | protocol
  /-- What `adv_tx`, `adv_wait_check` and the link report. -/
  | other (code : Nat)
  deriving DecidableEq

def statusFromCode (code : Word) : Status :=
  if code = 0x01 then .memoryAlign
  else if code = 0x02 then .invalidSize
  else if code = 0x03 then .memorySmall
  else if code = 0x04 then .failedInit
  else if code = 0x05 then .connNotFound
  else if code = 0x06 then .invalidOp
  else if code = 0x07 then .bufferOverflow
  else if code = 0x08 then .shuttingDown
  else .protocol

inductive StreamState where
  | live
  | closedLocal
  | closedPeer
  deriving DecidableEq

structure Stream where
  id : Word
  state : StreamState
  registered : Bool
  queue : List Nat
  deriving DecidableEq

inductive Stage where
  | sending
  | waiting
  | failing (st : Status)
  | returned (st : Status)
  deriving DecidableEq

structure OpenCall where
  id : Word
  stream : Nat
  stage : Stage
  done : Bool
  status : Status
  /-- How many frames were handled before the `OpConnAccept` that answered the call. -/
  acceptedAt : Option Nat
  deriving DecidableEq

inductive Frame where
  | create (id : Word)
  | accept (id : Word)
  | close (id : Word)
  | error (ctxID code : Word)
  | data (id : Word) (msg : Nat)
  deriving DecidableEq

/-- Pointers to streams and to `adv_open` records are positions in `streams` and `calls`. -/
structure State where
  nextStreamN : Word
  streams : List Stream
  reg : List Nat
  calls : List OpenCall
  opens : List Nat
  rxErr : Option Status
  handled : List Frame
  closes : List Nat
  deriving DecidableEq

def State.fresh : State := ⟨0, [⟨0, .live, true, []⟩], [0], [], [], none, [], []⟩

def openID (mode : LinkMode) (n : Word) : Word := if mode = .primary then n <<< 1 else 2 * n - 1

def peerOwnsID (mode : LinkMode) (id : Word) : Bool :=
  if id = 0 then false else (id &&& 1 ≠ 0 : Bool) == (mode = .primary : Bool)

def State.lookup (s : State) (id : Word) : Option Nat :=
  s.reg.find? fun i => (s.streams[i]?).any fun t => t.id == id

def State.register (s : State) (id : Word) : State :=
  { s with streams := s.streams ++ [⟨id, .live, true, []⟩], reg := s.reg ++ [s.streams.length] }

def State.unregister (s : State) (i : Nat) : State :=
  { s with
    reg := swapRemove s.reg i, streams := s.streams.modify i fun t => { t with registered := false } }

def State.setState (s : State) (i : Nat) (f : StreamState → StreamState) : State :=
  { s with streams := s.streams.modify i fun t => { t with state := f t.state } }

def State.findOpen (s : State) (id : Word) : Option Nat :=
  s.opens.find? fun c => (s.calls[c]?).any fun o => o.id == id && !o.done

def State.handleCreate (mode : LinkMode) (s : State) (id : Word) : State :=
  if !peerOwnsID mode id || (s.lookup id).isSome then s else s.register id

def State.handleAccept (s : State) (id : Word) : State :=
  match s.findOpen id with
  | none => s
  | some c =>
    { s with calls := s.calls.modify c fun o =>
      { o with done := true, status := .ok, acceptedAt := some s.handled.length } }

def State.handlePeerClose (s : State) (id : Word) : State :=
  -- Still opening: ignored.
  if s.opens.any fun c => (s.calls[c]?).any fun o => o.id == id then s
  else
    match s.lookup id with
    | none => s
    | some i =>
      if id = 0 then s
      else (s.unregister i).setState i fun st => if st = .live then .closedPeer else st

def State.failAll (s : State) (err : Status) : State :=
  let rxErr := s.rxErr.getD err
  { s with
    rxErr := some rxErr
    calls := s.calls.mapIdx fun c o =>
      if c ∈ s.opens ∧ ¬ o.done then { o with done := true, status := rxErr } else o }

def State.handleError (s : State) (ctxID code : Word) : State :=
  let st := statusFromCode code
  match s.findOpen ctxID with
  | none => s.failAll st
  | some c => { s with calls := s.calls.modify c fun o => { o with done := true, status := st } }

def State.handleData (s : State) (id : Word) (msg : Nat) : State :=
  match s.lookup id with
  | none => s
  | some i =>
    { s with streams := s.streams.modify i fun t =>
      if t.state = .live then { t with queue := t.queue ++ [msg] } else t }

/-- `room` is whether a request or a message is taken. Otherwise it is refused, held or dropped. -/
def State.handle (mode : LinkMode) (s : State) (room : Bool) : Frame → State
  | .create id => if room then s.handleCreate mode id else s
  | .accept id => s.handleAccept id
  | .close id => s.handlePeerClose id
  | .error ctxID code => s.handleError ctxID code
  | .data id msg => if room then s.handleData id msg else s

/-- The first section under the lock. Without memory only the number is used up. -/
def State.start (mode : LinkMode) (s : State) (memory : Bool) : State :=
  let n := s.nextStreamN + 1
  let id := openID mode n
  if memory then
    { s.register id with
      nextStreamN := n
      calls := s.calls ++ [⟨id, s.streams.length, .sending, false, .ok, none⟩]
      opens := s.calls.length :: s.opens }
  else { s with nextStreamN := n }

def State.setStage (s : State) (c : Nat) (stage : Stage) : State :=
  { s with calls := s.calls.modify c fun o => { o with stage := stage } }

def State.finish (s : State) (c : Nat) (o : OpenCall) (st : Status) : State :=
  let s := { s.setStage c (.returned st) with opens := s.opens.erase c }
  if st = .ok then s else (s.unregister o.stream).setState o.stream fun _ => .closedLocal

/-- The call has the lock after `adv_tx`, or after it was parked. `check` is what
`adv_wait_check` says. -/
def State.run (s : State) (c : Nat) (check : Status) : Option State :=
  s.calls[c]?.bind fun o =>
    match o.stage with
    | .waiting =>
      if o.done then some (s.finish c o o.status)
      else if check ≠ .ok then some (s.finish c o check)
      else some s
    | .failing st => some (s.finish c o st)
    | .sending | .returned _ => none

def State.sent (s : State) (c : Nat) (st : Status) : Option State :=
  s.calls[c]?.bind fun o =>
    if o.stage = .sending then some (s.setStage c (if st = .ok then .waiting else .failing st)) else none

/-- `hqq_stream_close`. The application has no pointer to a stream that is not opened yet. -/
def State.close (s : State) (i : Nat) : Option State :=
  if s.calls.any fun o => o.stream == i && o.stage != .returned .ok then none
  else
    s.streams[i]?.bind fun t =>
      if t.id = 0 ∨ t.state = .closedLocal then some s
      else
        let s := { s.setState i fun _ => .closedLocal with closes := i :: s.closes }
        let s := if t.registered then s.unregister i else s
        some { s with streams := s.streams.modify i fun t => { t with queue := [] } }

inductive RecvOutcome where
  | msg (m : Nat)
  | fails (st : Status)
  | parks
  deriving DecidableEq

/-- One round of `hqq_stream_recv`, for a caller that has neither a deadline nor a cancel. -/
def State.recv (s : State) (t : Stream) : RecvOutcome :=
  match t.queue with
  | m :: _ => .msg m
  | [] =>
    match t.state with
    | .closedLocal => .fails .closed
    | .closedPeer => .fails .peerClosed
    | .live =>
      match s.rxErr with
      | some err => .fails err
      | none => .parks

inductive Act where
  | start (memory : Bool)
  | sent (c : Nat) (st : Status)
  | run (c : Nat) (check : Status)
  | frame (f : Frame) (room : Bool)
  | listen (id : Word)
  | dropAccept (i : Nat)
  | failRx (err : Status)
  | close (i : Nat)
  | recv (i : Nat)
  deriving DecidableEq

def step (mode : LinkMode) (s : State) : Act → Option State
  | .start memory => some (s.start mode memory)
  | .sent c st => s.sent c st
  | .run c check => s.run c check
  | .frame f room => some { s.handle mode room f with handled := s.handled ++ [f] }
  | .listen id => some (s.handleCreate mode id)
  | .dropAccept i =>
    s.streams[i]?.bind fun t => if peerOwnsID mode t.id then some (s.unregister i) else none
  | .failRx err => if err = .ok then none else some (s.failAll err)
  | .close i => s.close i
  | .recv i => some { s with streams := s.streams.modify i fun t => { t with queue := t.queue.tail } }

def machine (mode : LinkMode) : Machine State Act := ⟨.fresh, step mode⟩

end Hqq.COpen
