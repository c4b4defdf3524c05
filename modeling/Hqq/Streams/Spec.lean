import Hqq.Negotiation.Spec

/-!
# Opening, accepting and closing streams

`advanced_stream.go`, `advanced_control.go` and `stream.go`, at one end of a link and then at
both. What `controlMu`, a channel or an atomic word makes atomic is one step. A ring is the list of
all frames its sender ever put on it, together with how many of them the receiver has read.
-/

namespace Hqq.Streams

abbrev ConnID := Word

inductive ErrorCode where
  | connNotFound
  | invalidOp
  | bufferOverflow
  deriving DecidableEq

/-- A frame as the receive path sorts it. `other` has nothing to do with opening or closing. -/
inductive Frame where
  | connCreate (id : ConnID)
  | connAccept (id : ConnID)
  | connClose (id : ConnID)
  | error (id : ConnID) (code : ErrorCode)
  | other
  deriving DecidableEq

inductive OverflowPolicy where
  | block
  | drop
  | fail
  deriving DecidableEq

structure Config where
  overflow : OverflowPolicy
  queueSize : Nat
  queueSize_pos : 0 < queueSize
  bufferCount : Nat
  bufferCount_pos : 0 < bufferCount
  grace : Bool

def minControlQueue : Nat := 16

def Config.ctrlSize (cfg : Config) : Nat := max cfg.bufferCount minControlQueue

/-- What `nextConnectionID` makes of the value `n` of its generator. -/
def connID (mode : LinkMode) (n : Nat) : ConnID :=
  match mode with
  | .primary => word n <<< 1
  | .secondary => (word n <<< 1) - 1

def peerOwns (mode : LinkMode) (id : ConnID) : Bool :=
  id != 0 && ((id &&& 1 == 1) == (mode == .primary))

/-- A `Stream` object: the `gen`-th one that the endpoint made for an ID. -/
structure Ref where
  id : ConnID
  gen : Nat
  deriving DecidableEq

/-- How far the one `Close` is that set `streamLocalClosed`, with what it had read of
`streamPeerClosed`. -/
inductive Closing where
  | live
  | marked (peerClosed : Bool)
  | forgotten (peerClosed : Bool)
  | done
  deriving DecidableEq

structure Stream where
  peerClosed : Bool
  closing : Closing
  deriving DecidableEq

def Stream.new : Stream := ⟨false, .live⟩

/-! ## Calls of OpenStream -/

inductive Why where
  | unsent
  | refused
  | gaveUp
  deriving DecidableEq

inductive Phase where
  | absent
  | allocated
  | registered (st : Ref)
  | waiting (st : Ref)
  | cleaning (why : Why)
  | failed (why : Why)
  | opened (st : Ref)
  deriving DecidableEq

inductive Reply where
  | accepted
  | refused
  deriving DecidableEq

structure Call where
  phase : Phase
  accepted : Option Reply
  deriving DecidableEq

/-! ## The goroutines -/

inductive Who where
  | sync
  | dispatcher
  deriving DecidableEq

inductive Failure where
  | opError
  | overflow
  | context
  deriving DecidableEq

inductive Next where
  | refuse (code : ErrorCode)
  | fail (why : Failure)
  | unslot
  deriving DecidableEq

/-- Where the goroutine is that holds `receiveMu`. -/
inductive Rx where
  | idle
  | handling (f : Frame)
  | reserving (st : Ref)
  | accepting (st : Ref)
  | forgetting (st : Ref) (next : Next)
  | unslotting
  | refusing (id : ConnID) (code : ErrorCode)
  | replying (n : Nat) (r : Reply)
  | peerClosing (st : Ref)
  | failed (why : Failure)
  deriving DecidableEq

def Next.rx (st : Ref) : Next → Rx
  | .refuse code => .refusing st.id code
  | .fail why => .failed why
  | .unslot => .unslotting

/-- Who holds `controlMu` across more than one step: `admitHeldLocked` or `releaseHeld`. -/
inductive Lock where
  | free
  | admitting (rest : List ConnID)
  | slotted (id : ConnID) (rest : List ConnID)
  | unslotting (rest : List ConnID)
  | releasing (rest : List ConnID)
  deriving DecidableEq

inductive Job where
  | accept (st : Ref)
  | error (id : ConnID) (code : ErrorCode)
  | other
  deriving DecidableEq

def Job.frame : Job → Frame
  | .accept st => .connAccept st.id
  | .error id code => .error id code
  | .other => .other

inductive Sender where
  | idle
  | sending (job : Job)
  | delivering (st : Ref)
  deriving DecidableEq

def Job.sender : Job → Sender
  | .accept st => .delivering st
  | .error _ _ | .other => .idle

/-- A job for which there is no room is dropped. -/
def Config.enqueue (cfg : Config) (queue : List Job) (job : Job) : List Job :=
  if queue.length < cfg.ctrlSize then queue ++ [job] else queue

structure Endpoint where
  connectionIDGenerator : Nat
  calls : Nat → Call
  streams : ConnID → Option Nat
  made : ConnID → Nat
  stream : Ref → Stream
  pendingConnections : ConnID → Option Nat
  listening : Bool
  held : List ConnID
  lock : Lock
  acceptSlots : Nat
  acceptCh : List Ref
  /-- Taken from `acceptCh` by an `AcceptStream` that has not given back the slot. -/
  returning : List Ref
  accepted : List Ref
  opened : List Ref
  /-- The calls of `Close` that have read `streamPeerClosed`, and what they read. -/
  loads : List (Ref × Bool)
  ctrlQueue : List Job
  sender : Sender
  dispatchStarted : Bool
  receiver : Option Who
  rx : Rx
  sent : List Frame
  read : Nat

def Endpoint.fresh : Endpoint where
  connectionIDGenerator := 0
  calls _ := ⟨.absent, none⟩
  streams _ := none
  made _ := 0
  stream _ := .new
  pendingConnections _ := none
  listening := false
  held := []
  lock := .free
  acceptSlots := 0
  acceptCh := []
  returning := []
  accepted := []
  opened := []
  loads := []
  ctrlQueue := []
  sender := .idle
  dispatchStarted := false
  receiver := none
  rx := .idle
  sent := []
  read := 0

namespace Endpoint

variable (e : Endpoint)

def setCall (n : Nat) (c : Call) : Endpoint := { e with calls := Function.update e.calls n c }

def setPhase (n : Nat) (p : Phase) : Endpoint := e.setCall n { e.calls n with phase := p }

def setStream (st : Ref) (x : Stream) : Endpoint :=
  { e with stream := Function.update e.stream st x }

def newRef (id : ConnID) : Ref := ⟨id, e.made id⟩

def register (id : ConnID) : Endpoint :=
  { e with
    streams := Function.update e.streams id (some (e.made id))
    made := Function.update e.made id (e.made id + 1)
    stream := Function.update e.stream (e.newRef id) .new }

def forget (id : ConnID) : Endpoint := { e with streams := Function.update e.streams id none }

def setPending (id : ConnID) (n : Option Nat) : Endpoint :=
  { e with pendingConnections := Function.update e.pendingConnections id n }

def enqueue (cfg : Config) (job : Job) : Endpoint :=
  { e with ctrlQueue := cfg.enqueue e.ctrlQueue job }

def put (f : Frame) : Endpoint := { e with sent := e.sent ++ [f] }

attribute [simp] setCall setPhase setStream register forget setPending enqueue put

end Endpoint

inductive Act where
  | startDispatcher
  | enter (who : Who)
  | leave
  | allocate
  | register (n : Nat)
  | sendCreate (n : Nat)
  | sendFail (n : Nat)
  | receiveReply (n : Nat)
  | giveUp (n : Nat)
  | cleanup (n : Nat)
  | dequeue
  | handle
  | reserve
  | ctxDone
  | forget
  | unslot
  | answer
  | reply
  | markPeer
  | listen
  | unlisten
  | admitHeld
  | expire (i : Nat)
  | releaseHeld
  | failPending (id : ConnID)
  | pop
  | send
  | deliver
  | queueOther
  | acceptStream
  | releaseSlot (i : Nat)
  | load (st : Ref)
  | mark (i : Nat)
  | close (st : Ref)
  deriving DecidableEq

section Step

variable (mode : LinkMode) (cfg : Config)

def Endpoint.invalid (e : Endpoint) (id : ConnID) : Bool :=
  (e.streams id).isSome || !peerOwns mode id

def handleConnCreate (e : Endpoint) (id : ConnID) : Endpoint :=
  if !e.listening then
    -- holdCreateLocked
    if cfg.grace && e.held.length + e.acceptSlots < cfg.queueSize then
      { e with held := e.held ++ [id], rx := .idle }
    else { e with rx := .refusing id .connNotFound }
  else if e.invalid mode id then { e with rx := .refusing id .invalidOp }
  else { e.register id with rx := .reserving (e.newRef id) }

def handleConnAccept (e : Endpoint) (id : ConnID) : Endpoint :=
  match e.pendingConnections id with
  | some n => { e.setPending id none with rx := .replying n .accepted }
  | none => { e with rx := .idle }

def routeControlError (e : Endpoint) (id : ConnID) : Endpoint :=
  match e.pendingConnections id with
  | some n => { (e.setPending id none).forget id with rx := .replying n .refused }
  | none => { e with rx := .failed .opError }

def handlePeerClose (e : Endpoint) (id : ConnID) : Endpoint :=
  match e.streams id, e.pendingConnections id with
  | some g, none => { e.forget id with rx := .peerClosing ⟨id, g⟩ }
  | _, _ => { e with rx := .idle }

def handleFrame (e : Endpoint) : Frame → Endpoint
  | .connCreate id => handleConnCreate mode cfg e id
  | .connAccept id => handleConnAccept e id
  | .connClose id => handlePeerClose e id
  | .error id _ => routeControlError e id
  | .other => { e with rx := .idle }

/-- The accept slot of `handleConnCreate`. Under `OverflowBlock` a full queue is waited for. -/
def reserve (e : Endpoint) (st : Ref) : Option Endpoint :=
  if e.acceptSlots < cfg.queueSize then
    some { e with acceptSlots := e.acceptSlots + 1, rx := .accepting st }
  else match cfg.overflow with
    | .block => none
    | .drop => some { e with rx := .forgetting st (.refuse .bufferOverflow) }
    | .fail => some { e with rx := .forgetting st (.fail .overflow) }

def answer (e : Endpoint) : Rx → Option Endpoint
  | .accepting st =>
    if e.ctrlQueue.length < cfg.ctrlSize then some { e.enqueue cfg (.accept st) with rx := .idle }
    else some { e with rx := .forgetting st .unslot }
  | .refusing id code => some { e.enqueue cfg (.error id code) with rx := .idle }
  | _ => none

/-- One step of the loops of `admitHeldLocked` and `releaseHeld`. -/
def admitHeld (e : Endpoint) : Lock → Option Endpoint
  | .free => none
  | .admitting [] => some { e with lock := .free }
  | .admitting (id :: rest) =>
    if e.invalid mode id then some { e.enqueue cfg (.error id .invalidOp) with lock := .admitting rest }
    else if e.acceptSlots < cfg.queueSize then
      some { e with acceptSlots := e.acceptSlots + 1, lock := .slotted id rest }
    else some { e.enqueue cfg (.error id .bufferOverflow) with lock := .admitting rest }
  | .slotted id rest =>
    if e.ctrlQueue.length < cfg.ctrlSize then
      some { (e.register id).enqueue cfg (.accept (e.newRef id)) with lock := .admitting rest }
    else some { e with lock := .unslotting rest }
  | .unslotting rest => some { e with acceptSlots := e.acceptSlots - 1, lock := .admitting rest }
  | .releasing [] => some { e with lock := .free }
  | .releasing (id :: rest) =>
    some { e.enqueue cfg (.error id .connNotFound) with lock := .releasing rest }

def cleanup (e : Endpoint) (n : Nat) (why : Why) : Endpoint :=
  let id := connID mode n
  let pending := if e.pendingConnections id = some n then none else e.pendingConnections id
  ((e.setPending id pending).forget id).setPhase n (.failed why)

def close (room : Bool) (e : Endpoint) (st : Ref) : Option Endpoint :=
  match (e.stream st).closing with
  | .marked pc =>
    if e.lock = .free then
      some ((e.forget st.id).setStream st { e.stream st with closing := .forgotten pc })
    else none
  | .forgotten true => some (e.setStream st { e.stream st with closing := .done })
  | .forgotten false =>
    if room then
      some ((e.put (.connClose st.id)).setStream st { e.stream st with closing := .done })
    else none
  | .live | .done => none

/-- `inc` is the next frame of the rx ring and `room` tells whether the tx ring has room. -/
def step (inc : Option Frame) (room : Bool) (e : Endpoint) : Act → Option Endpoint
  | .startDispatcher => some { e with dispatchStarted := true }
  | .enter who =>
    if e.receiver = none ∧ (who = .dispatcher ↔ e.dispatchStarted = true) then
      some { e with receiver := some who }
    else none
  | .leave =>
    match e.rx, e.receiver with
    | .idle, some _ => some { e with receiver := none }
    | .failed _, some .sync => some { e with receiver := none, rx := .idle }
    | _, _ => none
  | .allocate =>
    if !e.dispatchStarted then none
    else if connID mode (e.connectionIDGenerator + 1) = 0 then
      some { e with connectionIDGenerator := e.connectionIDGenerator + 1 }
    else some { e.setPhase (e.connectionIDGenerator + 1) .allocated with
      connectionIDGenerator := e.connectionIDGenerator + 1 }
  | .register n =>
    if (e.calls n).phase = .allocated ∧ e.lock = .free then
      some (((e.register (connID mode n)).setPending (connID mode n) (some n)).setPhase n
        (.registered (e.newRef (connID mode n))))
    else none
  | .sendCreate n =>
    match (e.calls n).phase with
    | .registered st =>
      if room then some ((e.put (.connCreate (connID mode n))).setPhase n (.waiting st)) else none
    | _ => none
  | .sendFail n =>
    match (e.calls n).phase with
    | .registered _ => some (e.setPhase n (.cleaning .unsent))
    | _ => none
  | .receiveReply n =>
    match (e.calls n).phase, (e.calls n).accepted with
    | .waiting st, some .accepted => some { e.setCall n ⟨.opened st, none⟩ with opened := st :: e.opened }
    | .waiting _, some .refused => some (e.setCall n ⟨.cleaning .refused, none⟩)
    | _, _ => none
  -- the context ends, or the dispatcher does
  | .giveUp n =>
    match (e.calls n).phase with
    | .waiting _ => some (e.setPhase n (.cleaning .gaveUp))
    | _ => none
  | .cleanup n =>
    match (e.calls n).phase with
    | .cleaning why => if e.lock = .free then some (cleanup mode e n why) else none
    | _ => none
  | .dequeue =>
    match inc, e.rx, e.receiver with
    | some f, .idle, some _ => some { e with rx := .handling f, read := e.read + 1 }
    | _, _, _ => none
  | .handle =>
    match e.rx with
    | .handling f => if e.lock = .free then some (handleFrame mode cfg e f) else none
    | _ => none
  | .reserve =>
    match e.rx with
    | .reserving st => reserve cfg e st
    | _ => none
  | .ctxDone =>
    match e.rx, e.receiver, cfg.overflow with
    | .reserving st, some .sync, .block => some { e with rx := .forgetting st (.fail .context) }
    | _, _, _ => none
  | .forget =>
    match e.rx with
    | .forgetting st next => if e.lock = .free then some { e.forget st.id with rx := next.rx st } else none
    | _ => none
  | .unslot =>
    match e.rx with
    | .unslotting => some { e with acceptSlots := e.acceptSlots - 1, rx := .idle }
    | _ => none
  | .answer => answer cfg e e.rx
  | .reply =>
    match e.rx with
    | .replying n r =>
      if (e.calls n).accepted = none then
        some { e.setCall n { e.calls n with accepted := some r } with rx := .idle }
      else none
    | _ => none
  | .markPeer =>
    match e.rx with
    | .peerClosing st =>
      some { e.setStream st { e.stream st with peerClosed := true } with rx := .idle }
    | _ => none
  -- ListenStreams
  | .listen =>
    if e.lock = .free ∧ e.listening = false then
      some { e with listening := true, held := [], lock := .admitting e.held }
    else none
  | .unlisten => if e.lock = .free then some { e with listening := false } else none
  | .admitHeld => admitHeld mode cfg e e.lock
  -- expireHeld
  | .expire i =>
    match e.held[i]?, e.lock with
    | some id, .free => some { e.enqueue cfg (.error id .connNotFound) with held := e.held.eraseIdx i }
    | _, _ => none
  | .releaseHeld =>
    if e.lock = .free then some { e with held := [], lock := .releasing e.held } else none
  -- one round of failPendingConnections, when the dispatcher has failed
  | .failPending id =>
    match e.rx, e.receiver, e.pendingConnections id with
    | .failed _, some .dispatcher, some n =>
      if e.lock = .free then
        some (((e.setPending id none).forget id).setCall n
          { e.calls n with accepted := (e.calls n).accepted.or (some .refused) })
      else none
    | _, _, _ => none
  -- controlLoop and runControlJob
  | .pop =>
    match e.sender, e.ctrlQueue with
    | .idle, job :: rest => some { e with sender := .sending job, ctrlQueue := rest }
    | _, _ => none
  | .send =>
    match e.sender with
    | .sending job => if room then some { e.put job.frame with sender := job.sender } else none
    | _ => none
  | .deliver =>
    match e.sender with
    | .delivering st =>
      if e.acceptCh.length < cfg.queueSize then
        some { e with acceptCh := e.acceptCh ++ [st], sender := .idle }
      else none
    | _ => none
  -- refuseRequest
  | .queueOther => some (e.enqueue cfg .other)
  | .acceptStream =>
    match e.acceptCh with
    | st :: rest => some { e with acceptCh := rest, returning := e.returning ++ [st] }
    | [] => none
  | .releaseSlot i =>
    match e.returning[i]? with
    | some st => some { e with
        acceptSlots := e.acceptSlots - 1
        returning := e.returning.eraseIdx i
        accepted := st :: e.accepted }
    | none => none
  -- Stream.Close
  | .load st =>
    if st ∈ e.opened ∨ st ∈ e.accepted then
      some { e with loads := (st, (e.stream st).peerClosed) :: e.loads }
    else none
  | .mark i =>
    match e.loads[i]? with
    | some (st, pc) =>
      if (e.stream st).closing = .live then
        some { e.setStream st { e.stream st with closing := .marked pc } with loads := e.loads.eraseIdx i }
      else some { e with loads := e.loads.eraseIdx i }
    | none => none
  | .close st => close room e st

end Step

/-! ## One end of a link whose peer sends anything -/

structure Alone where
  inc : List Frame
  ep : Endpoint

inductive AloneAct where
  | arrive (f : Frame)
  | act (a : Act)
  deriving DecidableEq

/-- The peer takes its frames when it likes, so a send is only ever late. -/
def aloneMachine (mode : LinkMode) (cfg : Config) : Machine Alone AloneAct where
  init := ⟨[], .fresh⟩
  step s
    | .arrive f => some { s with inc := s.inc ++ [f] }
    | .act a => (step mode cfg s.inc[s.ep.read]? true s.ep a).map fun e => { s with ep := e }

abbrev Link := LinkMode → Endpoint

def wire (s : Link) (m : LinkMode) : List Frame := (s m).sent.drop (s m.peer).read

def linkMachine (cfg : LinkMode → Config) : Machine Link (LinkMode × Act) where
  init _ := .fresh
  step s := fun (m, a) =>
    (step m (cfg m) (wire s m.peer).head? (decide ((wire s m).length < (cfg m).bufferCount)) (s m) a).map
      (Function.update s m)

end Hqq.Streams
