import Hqq.Handover
import Hqq.Layout

/-!
# Attaching to a segment

`claimSuperblock`, the formatting of the segment, `publishSuperblock` and `commitInit`, for any
number of endpoints. Every atomic access is one instruction, and so is every look at the clock. A
write into the rings and buffers is a `skip`. The reserved words, which nobody writes, are left out.
-/

namespace Hqq.Superblock

/-! ## The superblock -/

inductive Slot
  | primary
  | secondary
  deriving DecidableEq

inductive Field
  | magic | state | major | minor | pageSize | bufferCount | bufferSize | layoutSize | epoch
  | initToken | initHeartbeat | requiredFeatures | creatorToken
  | token (i : Slot) | pid (i : Slot) | heartbeat (i : Slot) | interval (i : Slot)
  deriving DecidableEq

abbrev Mem := Field → Word

def superblockMagic : Word := 0x4851515f53544c33
def superblockMajor : Word := 3
def superblockMinor : Word := 0
def knownRequiredFeatures : Word := 0

def stateEmpty : Word := 0
def stateInitializing : Word := 1
def stateReady : Word := 2

def pageFields : List Field :=
  [.magic, .state, .major, .minor, .pageSize, .bufferCount, .bufferSize, .layoutSize, .epoch,
    .initToken, .initHeartbeat, .requiredFeatures, .creatorToken,
    .token .primary, .pid .primary, .heartbeat .primary, .interval .primary,
    .token .secondary, .pid .secondary, .heartbeat .secondary, .interval .secondary]

structure Geometry where
  bufferCount : Word
  bufferSize : Word
  layoutSize : Word
  pageSize : Word
  deriving DecidableEq

def geometryOf (mem : Mem) : Geometry :=
  ⟨mem .bufferCount, mem .bufferSize, mem .layoutSize, mem .pageSize⟩

/-! ## Endpoints -/

inductive Role
  | any
  | creator
  | opener
  deriving DecidableEq

/-- One call of `openStandardLink`. Durations are in nanoseconds. -/
structure Endpoint where
  role : Role
  platform : Platform
  bufferCount : Int
  bufferSize : Int
  token : Word
  creatorToken : Word
  pid : Word
  heartbeatInterval : Word
  peerTimeout : Int
  attachTimeout : Int
  initStale : Int

def second : Int := 1000000000

def Endpoint.initStaleWindow (ep : Endpoint) : Int :=
  if 0 < ep.initStale then ep.initStale else max ep.peerTimeout (2 * second)

def Endpoint.geometry (ep : Endpoint) : Geometry where
  bufferCount := BitVec.ofInt 64 ep.bufferCount
  bufferSize := BitVec.ofInt 64 ep.bufferSize
  layoutSize := word (computeLayout ep.platform ep.bufferCount ep.bufferSize).1.total
  pageSize := word ep.platform.pagesize

inductive Err
  | incompatibleLayout
  | segmentNotReady
  | initContended
  | noLiveEndpoint
  | linkBusy
  | geometry (got : Geometry)
  deriving DecidableEq

structure Watch where
  tok : Word
  hb : Word
  since : Nat

structure Locals where
  deadline : Int
  watch : Option Watch
  emptySince : Option Nat

inductive Label
  | again (loc : Locals)
  | watch (loc : Locals) (i : Slot) (primaryAlive : Bool) (tok hb : Word) (stop : Int)
  | live (i : Slot)
  | failed (err : Err)
  | closed

abbrev Code := Prog Field Word Label

def fail (err : Err) : Code := .jump (.failed err)

def heartbeatFresh (now : Nat) (ts : Word) (timeout : Int) : Bool :=
  let age := (now : Int) - ts.toInt
  decide (-second < age) && decide (age < timeout)

def effectivePeerTimeout (ep : Endpoint) (interval : Word) : Int :=
  if ep.peerTimeout < (4 * interval).toInt then (4 * interval).toInt else ep.peerTimeout

def aliveAtOpen (ep : Endpoint) (loc : Locals) (i : Slot) (primaryAlive : Bool)
    (k : Bool → Code) : Code :=
  .load (.token i) fun tok =>
  if !isOwnerToken tok then k false else
  .load (.interval i) fun interval =>
  if interval.toInt ≤ 0 then k true else
  .load (.heartbeat i) fun hb =>
  if hb = 0 then k true else
  .clock fun now =>
  if heartbeatFresh now hb (effectivePeerTimeout ep interval) then k true else
  .clock fun now => .jump <|
    .watch loc i primaryAlive tok hb (now + min (3 * interval).toInt (2 * second))

def watchRound (loc : Locals) (i : Slot) (primaryAlive : Bool) (tok hb : Word) (stop : Int)
    (k : Bool → Code) : Code :=
  .clock fun now =>
  if stop ≤ now then k false else
  .load (.heartbeat i) fun h =>
  if h ≠ hb then .load (.token i) fun t => k (isOwnerToken t) else
  .load (.token i) fun t =>
  if t ≠ tok then .load (.token i) fun t => k (isOwnerToken t) else
  .jump (.watch loc i primaryAlive tok hb stop)

def check (ep : Endpoint) (k : Code) : Code :=
  .load .initToken fun t => if t = ep.token then k else fail .initContended

def progress (ep : Endpoint) (k : Code) : Code :=
  .load .initToken fun t =>
    if t = ep.token then .clock fun now => .store .initHeartbeat (word now) k else k

def formatSlices (ep : Endpoint) : Nat → Code → Code
  | 0, k => check ep (.skip k)
  | n + 1, k => check ep (.skip (formatSlices ep n k))

def formatSlice : Nat := 1024

def formatGuarded (ep : Endpoint) (k : Code) : Code :=
  check ep (.skip (formatSlices ep ((ep.bufferCount.toNat - 1) / formatSlice) k))

def zeroSlice : Nat := 256 <<< 10

def zeroChunks (ep : Endpoint) : Nat → Code → Code
  | 0, k => k
  | n + 1, k => check ep (.skip (progress ep (zeroChunks ep n k)))

def zero (ep : Endpoint) (k : Code) : Code :=
  zeroChunks ep ((ep.bufferCount.toNat * ep.bufferSize.toNat + zeroSlice - 1) / zeroSlice) k

def stampLayout (k : Code) : Code :=
  .store .major superblockMajor (.store .minor superblockMinor (.store .requiredFeatures 0 k))

def clearEndpoint (i : Slot) (k : Code) : Code :=
  .store (.token i) 0 (.store (.pid i) 0 (.store (.heartbeat i) 0 (.store (.interval i) 0 k)))

def fillEndpoint (ep : Endpoint) (i : Slot) (k : Code) : Code :=
  .store (.pid i) ep.pid (.store (.interval i) ep.heartbeatInterval
    (.clock fun now => .store (.heartbeat i) (word now) k))

def commitInit (ep : Endpoint) : Code :=
  .cas .initToken ep.token 0 fun
    | false => fail .initContended
    | true => .add .epoch 1 fun _ => .store .state stateReady (.jump (.live .primary))

def storeGeometry (ep : Endpoint) (k : Code) : Code :=
  .store .pageSize ep.geometry.pageSize (.store .bufferCount ep.geometry.bufferCount
    (.store .bufferSize ep.geometry.bufferSize (.store .layoutSize ep.geometry.layoutSize k)))

def publishSuperblock (ep : Endpoint) : Code :=
  check ep <| stampLayout <| check ep <| storeGeometry ep <|
  check ep <| clearEndpoint .secondary <|
  check ep <| .store (.token .primary) ep.token <| fillEndpoint ep .primary <|
  check ep <| .store .magic superblockMagic <| commitInit ep

def initSegment (ep : Endpoint) : Code :=
  formatGuarded ep <| progress ep <| formatGuarded ep <| progress ep <|
  zero ep <| zero ep <| publishSuperblock ep

def beginInit (ep : Endpoint) (expected : Word) (k : Bool → Code) : Code :=
  stampLayout <| .cas .initToken expected ep.token fun
    | false => k false
    | true => .store .creatorToken ep.creatorToken <|
        .clock fun now => .store .initHeartbeat (word now) (k true)

def claimed (ep : Endpoint) : Code :=
  .load .initToken fun expected => beginInit ep expected fun
    | true => initSegment ep
    | false => fail .initContended

def firstPageZero (k : Bool → Code) : List Field → Code
  | [] => k true
  | f :: fs => .load f fun v => if v ≠ 0 then k false else firstPageZero k fs

def checkLayoutCompat (initializing : Bool) (k : Code) : Code :=
  .load .requiredFeatures fun features =>
  if features &&& ~~~knownRequiredFeatures ≠ 0 then fail .incompatibleLayout else
  .load .magic fun magic =>
  .load .major fun major =>
  if !initializing then
    if magic ≠ superblockMagic ∨ major ≠ superblockMajor then fail .incompatibleLayout else k
  else if magic ≠ 0 ∧ magic ≠ superblockMagic then fail .incompatibleLayout
  else if major = superblockMajor then k
  else if major ≠ 0 then fail .incompatibleLayout
  else .load .initToken fun t => if t ≠ 0 then fail .incompatibleLayout else k

def again (loc : Locals) : Code := .jump (.again loc)

/-- A stalled initializer is given its whole window, also past the deadline. -/
def waitLimit (ep : Endpoint) (loc : Locals) : Option Watch → Int
  | none => loc.deadline
  | some w =>
    if w.since < loc.deadline then max loc.deadline (w.since + ep.initStaleWindow)
    else loc.deadline

/-- Sleeps, or gives up after the limit. `watch` is the initializer it waits for. -/
def waitFor (ep : Endpoint) (loc : Locals) (watch : Option Watch) : Code :=
  .clock fun now =>
  if (now : Int) ≤ waitLimit ep loc watch then again loc else
  match watch with
  | none => fail .initContended
  | some w => .clock fun now =>
    if ep.initStaleWindow ≤ (now : Int) - w.since then again loc else fail .initContended

def wait (ep : Endpoint) (loc : Locals) (stalling emptyWait : Bool) : Code :=
  if emptyWait then again loc else waitFor ep loc (if stalling then loc.watch else none)

/-- The page of an empty segment was found to be zero, or not. -/
def claimPage (ep : Endpoint) (loc : Locals) : Bool → Code
  | false => .load .state fun state =>
      if state ≠ stateEmpty then again loc else fail .incompatibleLayout
  | true =>
    if ep.role = .opener then
      let expired (since : Nat) : Code := .clock fun now =>
        if ep.attachTimeout ≤ (now : Int) - since then fail .segmentNotReady
        else wait ep { loc with emptySince := some since } false true
      match loc.emptySince with
      | some since => expired since
      | none => .clock expired
    else .cas .state stateEmpty stateInitializing fun
      | true => claimed ep
      | false => wait ep loc false false

def claimEmpty (ep : Endpoint) (loc : Locals) : Code := firstPageZero (claimPage ep loc) pageFields

def claimInitializing (ep : Endpoint) (loc : Locals) : Code :=
  .load .initToken fun tok => .load .initHeartbeat fun hb => checkLayoutCompat true <|
  if ep.role = .opener then wait ep loc false false else
  .clock fun now =>
  let fresh := wait ep { loc with watch := some ⟨tok, hb, now⟩ } true false
  match loc.watch with
  | none => fresh
  | some w =>
    if w.tok ≠ tok ∨ w.hb ≠ hb then fresh
    else if ep.initStaleWindow ≤ (now : Int) - w.since then beginInit ep tok fun
      | true => initSegment ep
      | false => wait ep { loc with watch := none } true false
    else wait ep loc true false

def claimJudged (ep : Endpoint) (loc : Locals) (primaryAlive secondaryAlive : Bool) : Code :=
  if !primaryAlive && !secondaryAlive then
    if ep.role = .opener then fail .noLiveEndpoint else
    .cas .state stateReady stateInitializing fun
      | true => claimed ep
      | false => again loc
  else if ep.role = .creator then fail .linkBusy else
  .load .bufferCount fun bufferCount => .load .bufferSize fun bufferSize =>
  .load .layoutSize fun layoutSize => .load .pageSize fun pageSize =>
  let got : Geometry := ⟨bufferCount, bufferSize, layoutSize, pageSize⟩
  if got ≠ ep.geometry then fail (.geometry got)
  else if !primaryAlive then fail .linkBusy else
  .load (.token .secondary) fun t =>
  if t ≠ 0 then fail .linkBusy else
  .cas (.token .secondary) 0 ep.token fun
    | true => fillEndpoint ep .secondary (.load .epoch fun _ => .jump (.live .secondary))
    | false => again loc

def afterVerdict (ep : Endpoint) (loc : Locals) (i : Slot) (primaryAlive alive : Bool) : Code :=
  match i with
  | .primary => aliveAtOpen ep loc .secondary alive (claimJudged ep loc alive)
  | .secondary => claimJudged ep loc primaryAlive alive

def claimReady (ep : Endpoint) (loc : Locals) : Code :=
  checkLayoutCompat false <|
    aliveAtOpen ep loc .primary false (afterVerdict ep loc .primary false)

def claimRound (ep : Endpoint) (loc : Locals) : Code :=
  .load .state fun state =>
  if state = stateEmpty then claimEmpty ep { loc with watch := none }
  else if state = stateInitializing then claimInitializing ep { loc with emptySince := none }
  else if state = stateReady then claimReady ep ⟨loc.deadline, none, none⟩
  else fail .incompatibleLayout

def claimSuperblock (ep : Endpoint) : Code :=
  .clock fun now => again ⟨now + ep.attachTimeout, none, none⟩

def heartbeatRound (ep : Endpoint) (i : Slot) : Code :=
  .load (.token i) fun t =>
    if t = ep.token then .clock fun now => .store (.heartbeat i) (word now) (.jump (.live i))
    else .jump (.live i)

def close (ep : Endpoint) (i : Slot) : Code :=
  .cas (.token i) ep.token detachedToken fun _ => .jump .closed

def code (ep : Endpoint) : Label → Option Code
  | .again loc => some (claimRound ep loc)
  | .watch loc i primaryAlive tok hb stop =>
    some (watchRound loc i primaryAlive tok hb stop (afterVerdict ep loc i primaryAlive))
  | .live i => if ep.heartbeatInterval.toInt ≤ 0 then none else some (heartbeatRound ep i)
  | .failed _ => none
  | .closed => none

/-- A live endpoint can be closed. -/
def closing (ep : Endpoint) : Label → Option Code
  | .live i => some (close ep i)
  | .again _ | .watch .. | .failed _ | .closed => none

/-! ## The machine

Any number of endpoints, each with its own options. A killed endpoint takes no
further step: it crashed, or its context was done. -/

instance : Handover Field := ⟨.state, .initToken, by simp⟩

abbrev View := Hqq.View Field

structure Join (Eid : Type) where
  who : Eid
  epoch : Nat
  state : Word
  geometry : Geometry

structure Take (Eid : Type) where
  who : Eid
  epochSeen : Nat
  epoch : Nat
  mem : Mem
  clock : Nat

/-- The views and everything here is history, which no endpoint reads. -/
structure State (Eid : Type) extends Threads Eid Field Word Label View where
  commits : List Eid
  takes : List (Take Eid)
  joins : List (Join Eid)
  takesSeen : Eid → Nat
  epochSeen : Eid → Nat

abbrev Act := Threads.Act

variable {Eid : Type} [DecidableEq Eid]

def State.note (s : State Eid) (e : Eid) : State Eid :=
  match s.prog e with
  | .load f _ =>
    if f = .state then { s with takesSeen := Function.update s.takesSeen e s.takes.length
                                epochSeen := Function.update s.epochSeen e s.commits.length }
    else s
  | .store f _ _ => if f = .state then { s with commits := s.commits ++ [e] } else s
  | .cas f old _ _ =>
    if s.mem f ≠ old then s
    else if f = .state ∧ old = stateReady then
      { s with takes := s.takes ++ [⟨e, s.epochSeen e, s.commits.length, s.mem, s.clock⟩] }
    else if f = .token .secondary ∧ old = 0 then
      { s with joins := s.joins ++ [⟨e, s.commits.length, s.mem .state, geometryOf s.mem⟩] }
    else s
  | .add .. | .clock _ | .skip _ | .jump _ => s

def step (ep : Eid → Endpoint) (s : State Eid) (a : Act Eid) : Option (State Eid) :=
  let noted := match a with
    | .next e => s.note e
    | .close _ | .kill _ | .tick _ => s
  (s.toThreads.step (fun _ => View.tracker) (fun e => code (ep e)) (fun e => closing (ep e)) a).map
    fun t => { noted with toThreads := t }

def start (ep : Eid → Endpoint) (t0 : Nat) : State Eid where
  mem := fun _ => 0
  prog := fun e => claimSuperblock (ep e)
  dead := fun _ => false
  clock := t0
  view := fun _ => ⟨.outside, fun _ => none, fun _ => none, 0⟩
  commits := []
  takes := []
  joins := []
  takesSeen := fun _ => 0
  epochSeen := fun _ => 0

def machine (ep : Eid → Endpoint) (t0 : Nat) : Machine (State Eid) (Act Eid) where
  init := start ep t0
  step := step ep

structure Distinct (ep : Eid → Endpoint) : Prop where
  owner : ∀ e, isOwnerToken (ep e).token = true
  inj : ∀ e e', (ep e).token = (ep e').token → e = e'

omit [DecidableEq Eid] in
theorem Distinct.token_ne {ep : Eid → Endpoint} (h : Distinct ep) (e : Eid) :
    (ep e).token ≠ 0 := by
  intro h0
  simpa [h0, isOwnerToken] using h.owner e

end Hqq.Superblock
