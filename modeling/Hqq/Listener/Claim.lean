import Hqq.Superblock.Spec

/-!
# Claiming a listener name

`claimListener`, `Acceptor.initialize`, the heartbeats and `Close` of `listener.go`, for any
number of acceptors. Every atomic access is one instruction, and so is every look at the clock. A
write into the ring of connect records is a `skip`, and words that nobody writes are left out.
-/

namespace Hqq.Acceptors

open Superblock (second heartbeatFresh Watch)

inductive Field
  | magic | state | major | minor | ringOffset | recordSize | capacity | layoutSize | epoch
  | initToken | initHeartbeat | requiredFeatures | creatorToken
  | serverToken | serverPID | serverHeartbeat | serverInterval
  | maxBufferCount | maxBufferSize | maxLinkSize | features
  | prefixLen | prefixWord (i : Fin 4)
  deriving DecidableEq

abbrev Mem := Field → Word

def listenerMagic : Word := 0x4851515f4c534e31
def listenerMajor : Word := 1
def listenerMinor : Word := 0
def listenerKnownRequiredFeatures : Word := 0

def stateEmpty : Word := Superblock.stateEmpty
def stateInitializing : Word := Superblock.stateInitializing
def stateReady : Word := Superblock.stateReady

def listenerRingOffset : Word := 4096
def listenerRecordSize : Word := 248

def headerFields : List Field :=
  [.magic, .state, .major, .minor, .ringOffset, .recordSize, .capacity, .layoutSize, .epoch,
    .initToken, .initHeartbeat, .requiredFeatures, .creatorToken,
    .serverToken, .serverPID, .serverHeartbeat, .serverInterval,
    .maxBufferCount, .maxBufferSize, .maxLinkSize, .features,
    .prefixLen, .prefixWord 0, .prefixWord 1, .prefixWord 2, .prefixWord 3]

/-- One call of `NewAcceptorContext`. Durations are in nanoseconds. -/
structure Acceptor where
  token : Word
  creatorToken : Word
  pid : Word
  heartbeatInterval : Word
  peerTimeout : Int
  attachTimeout : Int
  initStale : Int
  queueSize : Nat
  layoutSize : Word
  maxBufferCount : Word
  maxBufferSize : Word
  maxLinkSize : Word
  features : Word
  prefixLen : Word
  prefixWord : Fin 4 → Word

def Acceptor.initStaleWindow (a : Acceptor) : Int :=
  if 0 < a.initStale then a.initStale else max a.peerTimeout (2 * second)

inductive Err
  | incompatibleLayout
  | initContended
  | listenerBusy
  deriving DecidableEq

structure Locals where
  deadline : Int
  watch : Option Watch

inductive Label
  | again (loc : Locals)
  | watch (loc : Locals) (tok hb : Word) (stop : Int)
  | live
  | failed (err : Err)
  | closed

abbrev Code := Prog Field Word Label

def fail (err : Err) : Code := .jump (.failed err)

def hour : Int := 3600 * second

def effectivePeerTimeout (a : Acceptor) (interval : Word) : Int :=
  if a.peerTimeout < (4 * interval).toInt then (4 * interval).toInt else a.peerTimeout

/-- `listenerServerAlive` up to the loop that watches a heartbeat that looks stale. -/
def listenerServerAlive (a : Acceptor) (loc : Locals) (k : Bool → Code) : Code :=
  .load .serverToken fun tok =>
  if !isOwnerToken tok then k false else
  .load .serverInterval fun interval =>
  if interval.toInt ≤ 0 ∨ hour < interval.toInt then k true else
  .load .serverHeartbeat fun hb =>
  if hb = 0 then k true else
  .clock fun now =>
  if heartbeatFresh now hb (effectivePeerTimeout a interval) then k true else
  .clock fun now => .jump (.watch loc tok hb (now + min (3 * interval).toInt (2 * second)))

def watchRound (loc : Locals) (tok hb : Word) (stop : Int) (k : Bool → Code) : Code :=
  .clock fun now =>
  if stop ≤ now then k false else
  .load .serverHeartbeat fun h =>
  if h ≠ hb then .load .serverToken fun t => k (isOwnerToken t) else
  .load .serverToken fun t =>
  if t ≠ tok then .load .serverToken fun t => k (isOwnerToken t) else
  .jump (.watch loc tok hb stop)

def check (a : Acceptor) (k : Code) : Code :=
  .load .initToken fun t => if t = a.token then k else fail .initContended

def formatSlices (a : Acceptor) : Nat → Code → Code
  | 0, k => check a (.skip k)
  | n + 1, k => check a (.skip (formatSlices a n k))

def formatGuarded (a : Acceptor) (k : Code) : Code :=
  check a (.skip (formatSlices a ((a.queueSize - 1) / Superblock.formatSlice) k))

def storeAll (fs : List (Field × Word)) (k : Code) : Code := fs.foldr (fun p => .store p.1 p.2) k

def stampListener (k : Code) : Code :=
  storeAll [(.major, listenerMajor), (.minor, listenerMinor), (.requiredFeatures, 0)] k

def storeLimits (a : Acceptor) (k : Code) : Code :=
  storeAll [(.ringOffset, listenerRingOffset), (.recordSize, listenerRecordSize),
    (.capacity, word a.queueSize), (.layoutSize, a.layoutSize), (.maxBufferCount, a.maxBufferCount),
    (.maxBufferSize, a.maxBufferSize), (.maxLinkSize, a.maxLinkSize), (.features, a.features),
    (.prefixWord 0, 0), (.prefixWord 1, 0), (.prefixWord 2, 0), (.prefixWord 3, 0),
    (.prefixWord 0, a.prefixWord 0), (.prefixWord 1, a.prefixWord 1), (.prefixWord 2, a.prefixWord 2),
    (.prefixWord 3, a.prefixWord 3), (.prefixLen, a.prefixLen), (.serverPID, a.pid)] k

def commitInit (a : Acceptor) : Code :=
  .cas .initToken a.token 0 fun
    | false => fail .initContended
    | true => .add .epoch 1 fun _ => .store .state stateReady (.jump .live)

def initHeader (a : Acceptor) : Code :=
  formatGuarded a <| .clock fun now => .store .initHeartbeat (word now) <|
  check a <| stampListener <| storeLimits a <| .store .serverInterval a.heartbeatInterval <|
  .clock fun now => .store .serverHeartbeat (word now) <| .store .serverToken a.token <|
  .store .magic listenerMagic <| commitInit a

/-- The acceptor becomes the initializer if `initToken` still is `expected`. -/
def beginListenerInit (a : Acceptor) (expected : Word) (k : Bool → Code) : Code :=
  stampListener <| .cas .initToken expected a.token fun
    | false => k false
    | true => .store .creatorToken a.creatorToken <|
        .clock fun now => .store .initHeartbeat (word now) (k true)

def claimed (a : Acceptor) : Code :=
  .load .initToken fun expected => beginListenerInit a expected fun
    | true => initHeader a
    | false => fail .initContended

def listenerHeaderZero (k : Bool → Code) : List Field → Code
  | [] => k true
  | f :: fs => .load f fun v => if v ≠ 0 then k false else listenerHeaderZero k fs

def checkListenerCompat (initializing : Bool) (k : Code) : Code :=
  .load .requiredFeatures fun features =>
  if features &&& ~~~listenerKnownRequiredFeatures ≠ 0 then fail .incompatibleLayout else
  .load .magic fun magic =>
  .load .major fun major =>
  if !initializing then
    if magic ≠ listenerMagic ∨ major ≠ listenerMajor then fail .incompatibleLayout else k
  else if magic ≠ 0 ∧ magic ≠ listenerMagic then fail .incompatibleLayout
  else if major = listenerMajor then k
  else if major ≠ 0 then fail .incompatibleLayout
  else .load .initToken fun t => if t ≠ 0 then fail .incompatibleLayout else k

def again (loc : Locals) : Code := .jump (.again loc)

def waitLimit (a : Acceptor) (loc : Locals) : Option Watch → Int
  | none => loc.deadline
  | some w =>
    if w.since < loc.deadline then max loc.deadline (w.since + a.initStaleWindow) else loc.deadline

def wait (a : Acceptor) (loc : Locals) (stalling : Bool) : Code :=
  let watch := if stalling then loc.watch else none
  .clock fun now =>
  if (now : Int) ≤ waitLimit a loc watch then again loc else
  match watch with
  | none => fail .initContended
  | some w => .clock fun now =>
    if a.initStaleWindow ≤ (now : Int) - w.since then again loc else fail .initContended

def claimEmpty (a : Acceptor) (loc : Locals) : Code :=
  listenerHeaderZero (fun
    | false => .load .state fun state =>
        if state ≠ stateEmpty then again loc else fail .incompatibleLayout
    | true => .cas .state stateEmpty stateInitializing fun
        | true => claimed a
        | false => wait a loc false) headerFields

def claimInitializing (a : Acceptor) (loc : Locals) : Code :=
  .load .initToken fun tok => .load .initHeartbeat fun hb => checkListenerCompat true <|
  .clock fun now =>
  let fresh := wait a { loc with watch := some ⟨tok, hb, now⟩ } true
  match loc.watch with
  | none => fresh
  | some w =>
    if w.tok ≠ tok ∨ w.hb ≠ hb then fresh
    else if a.initStaleWindow ≤ (now : Int) - w.since then beginListenerInit a tok fun
      | true => initHeader a
      | false => wait a { loc with watch := none } true
    else wait a loc true

def claimJudged (a : Acceptor) (loc : Locals) (alive : Bool) : Code :=
  if alive then fail .listenerBusy
  else .cas .state stateReady stateInitializing fun
    | true => claimed a
    | false => again loc

def claimReady (a : Acceptor) (loc : Locals) : Code :=
  checkListenerCompat false (listenerServerAlive a loc (claimJudged a loc))

def claimRound (a : Acceptor) (loc : Locals) : Code :=
  .load .state fun state =>
  if state = stateEmpty then claimEmpty a { loc with watch := none }
  else if state = stateInitializing then claimInitializing a loc
  else if state = stateReady then claimReady a { loc with watch := none }
  else fail .incompatibleLayout

def claimListener (a : Acceptor) : Code := .clock fun now => again ⟨now + a.attachTimeout, none⟩

def heartbeatRound (a : Acceptor) : Code :=
  .load .serverToken fun t =>
    if t = a.token then .clock fun now => .store .serverHeartbeat (word now) (.jump .live)
    else .jump .live

def close (a : Acceptor) : Code := .cas .serverToken a.token detachedToken fun _ => .jump .closed

def code (a : Acceptor) : Label → Option Code
  | .again loc => some (claimRound a loc)
  | .watch loc tok hb stop => some (watchRound loc tok hb stop (claimJudged a loc))
  | .live => if a.heartbeatInterval.toInt ≤ 0 then none else some (heartbeatRound a)
  | .failed _ => none
  | .closed => none

/-- A live acceptor can be closed. -/
def closing (a : Acceptor) : Label → Option Code
  | .live => some (close a)
  | .again _ | .watch .. | .failed _ | .closed => none

/-! ## The machine

Any number of acceptors, each with its own options. A killed acceptor takes no further step: it
crashed, or its context was done. -/

instance : Handover Field := ⟨.state, .initToken, by simp⟩

abbrev View := Hqq.View Field

/-- The views and `commits` are history, which no acceptor reads. -/
structure State (Eid : Type) extends Threads Eid Field Word Label View where
  commits : List Eid

abbrev Act := Threads.Act

variable {Eid : Type} [DecidableEq Eid]

def State.note (s : State Eid) (e : Eid) : List Eid :=
  match s.prog e with
  | .store f _ _ => if f = .state then s.commits ++ [e] else s.commits
  | _ => s.commits

def step (ep : Eid → Acceptor) (s : State Eid) (a : Act Eid) : Option (State Eid) :=
  let commits := match a with
    | .next e => s.note e
    | .close _ | .kill _ | .tick _ => s.commits
  (s.toThreads.step (fun _ => View.tracker) (fun e => code (ep e)) (fun e => closing (ep e)) a).map
    fun t => ⟨t, commits⟩

def start (ep : Eid → Acceptor) (t0 : Nat) : State Eid where
  mem := fun _ => 0
  prog := fun e => claimListener (ep e)
  dead := fun _ => false
  clock := t0
  view := fun _ => ⟨.outside, fun _ => none, fun _ => none, 0⟩
  commits := []

def machine (ep : Eid → Acceptor) (t0 : Nat) : Machine (State Eid) (Act Eid) where
  init := start ep t0
  step := step ep

/-- Every acceptor draws its own token, and `newToken` draws no reserved one. -/
structure Distinct (ep : Eid → Acceptor) : Prop where
  owner : ∀ e, isOwnerToken (ep e).token = true
  inj : ∀ e e', (ep e).token = (ep e').token → e = e'

omit [DecidableEq Eid] in
theorem Distinct.token_ne {ep : Eid → Acceptor} (h : Distinct ep) (e : Eid) : (ep e).token ≠ 0 := by
  intro h0
  simpa [h0, isOwnerToken] using h.owner e

end Hqq.Acceptors
